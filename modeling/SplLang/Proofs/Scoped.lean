import Mathlib.Data.List.Nodup
import SplLang.Proofs.Declared

/-! What bodies see once all declarations are entered. Which entries the own and the
procedures have is left open: they change while frames are laid out. -/
namespace SplLang

/-- The global scope holds the library and the procedures, and inside it lies one scope for each
procedure with its own. -/
structure Scoped (scopes : ScopeTree) (sigs : List Signature)
    (own : Signature → Keyed Name Entry) (entryOf : Signature → ProcedureEntry) : Prop where
  outermost : scopes.parent? 0 = none
  no_global_variable : ∀ name v, scopes.held? 0 name ≠ some (.var v)
  procedure : ∀ {name entry}, scopes.held? 0 name = some (.proc entry) ↔
    GlobalProcedure sigs entryOf name entry
  inside : ∀ sig ∈ sigs, 0 < sig.scope ∧ scopes.parent? sig.scope = some 0
  held : ∀ sig ∈ sigs, ∀ name, scopes.held? sig.scope name = (own sig).at? name
  scope : ∀ sig ∈ sigs, (entryOf sig).scope = some sig.scope
  distinct : (sigs.map (·.scope)).Nodup
  names : (sigs.map (·.procedure.name)).Nodup

theorem Declared.scoped {context : Context} {sigs : List Signature} (h : Declared context sigs) :
    Scoped context.scopes sigs Signature.own Signature.entry := by
  obtain ⟨entries, hg, hv, hp⟩ := h.globals
  refine ⟨ScopeTree.parent?_of_scope? hg, ?_, ?_, ?_, ?_, fun _ _ => rfl, h.distinct, h.names⟩
  · intro name v
    rw [ScopeTree.held?_of_scope? hg]
    exact hv name v
  · intro name entry
    rw [ScopeTree.held?_of_scope? hg]
    exact hp name entry
  · intro sig hsig
    obtain ⟨hpos, hs⟩ := h.scopes sig hsig
    exact ⟨hpos, ScopeTree.parent?_of_scope? hs⟩
  · intro sig hsig name
    rw [ScopeTree.held?_of_scope? (h.scopes sig hsig).2]

namespace Scoped
variable {scopes : ScopeTree} {sigs : List Signature} {own : Signature → Keyed Name Entry}
  {entryOf : Signature → ProcedureEntry} {sig : Signature}

theorem procedure?_iff (h : Scoped scopes sigs own entryOf) {name : Name}
    {entry : ProcedureEntry} :
    scopes.procedure? name = some entry ↔ GlobalProcedure sigs entryOf name entry := by
  rw [← h.procedure, ScopeTree.procedure?, show ScopeTree.globalScope = 0 from rfl]
  cases scopes.held? 0 name with
  | none => simp
  | some e => cases e <;> simp [Entry.proc?]

theorem procedure?_of_mem (h : Scoped scopes sigs own entryOf) (hs : sig ∈ sigs) :
    scopes.procedure? sig.procedure.name = some (entryOf sig) :=
  h.procedure?_iff.mpr (.inr ⟨sig, hs, rfl, rfl⟩)

/-- A call means the library procedure or the procedure of that name. -/
theorem callee?_iff (h : Scoped scopes sigs own entryOf) (hs : sig ∈ sigs) {name : Name}
    {entry : ProcedureEntry} :
    scopes.callee? sig.scope name = some entry ↔ GlobalProcedure sigs entryOf name entry := by
  obtain ⟨hpos, hp⟩ := h.inside sig hs
  have hc : 0 < scopes.count := by
    cases ht : scopes.scope? sig.scope with
    | none => simp [ScopeTree.parent?, ht] at hp
    | some held => exact Nat.lt_trans hpos (ScopeTree.lt_count_of_scope? ht)
  rw [← h.procedure, ScopeTree.callee?, hp]
  show (scopes.seen? 0 name).bind (·.proc?) = some entry ↔ _
  rw [ScopeTree.seen?_of_no_parent hc h.outermost]
  cases scopes.held? 0 name with
  | none => simp
  | some e => cases e <;> simp [Entry.proc?]

/-- A name means the variable that the procedure's own scope holds for it. -/
theorem seen_variable (h : Scoped scopes sigs own entryOf) (hs : sig ∈ sigs) (name : Name) :
    (scopes.seen? sig.scope name).bind (·.var?) = ((own sig).at? name).bind (·.var?) := by
  obtain ⟨hpos, hp⟩ := h.inside sig hs
  rw [ScopeTree.seen?_of_nested h.outermost hp hpos, h.held sig hs]
  cases (own sig).at? name with
  | some entry => rfl
  | none =>
    rw [Option.none_or]
    cases hg : scopes.held? 0 name with
    | none => rfl
    | some entry =>
      cases entry with
      | var v => exact absurd hg (h.no_global_variable name v)
      | type _ => rfl
      | proc _ => rfl

/-- Two procedures of one name are one. -/
theorem eq_of_name (h : Scoped scopes sigs own entryOf) {other : Signature} (hs : sig ∈ sigs)
    (ho : other ∈ sigs) (hn : sig.procedure.name = other.procedure.name) : sig = other :=
  List.inj_on_of_nodup_map h.names hs ho hn

theorem eq_of_scope (h : Scoped scopes sigs own entryOf) {other : Signature} (hs : sig ∈ sigs)
    (ho : other ∈ sigs) (hn : sig.scope = other.scope) : sig = other :=
  List.inj_on_of_nodup_map h.distinct hs ho hn

/-- No procedure has the name of a library procedure. -/
theorem ne_library (h : Scoped scopes sigs own entryOf) (hs : sig ∈ sigs) {p : LibraryProcedure}
    (hp : p ∈ library) : p.name ≠ sig.procedure.name := by
  intro hn
  have hl := h.procedure.mpr (.inl ⟨p, hp, hn, rfl⟩)
  have hu := h.procedure.mpr (.inr ⟨sig, hs, rfl, rfl⟩)
  rw [hl] at hu
  have he : p.entry = entryOf sig := Entry.proc.inj (Option.some.inj hu)
  have hscope := h.scope sig hs
  rw [← he] at hscope
  cases hscope

end Scoped
end SplLang
