import Mathlib.Algebra.Ring.Nat
import SplLang.Frame.Placement
import SplLang.Proofs.Scoped

/-! Where the variables of each procedure are placed. Parameters take one word each, upwards
from the frame pointer; locals lie under it, one below the other. -/
namespace SplLang

namespace Signature

/-- Each local with its depth: how many words its lowest one lies under the frame pointer. -/
def depthsFrom (types : TypeTable) :
    Nat → List (LocalVariable × TypeId) → List ((LocalVariable × TypeId) × Nat)
  | _, [] => []
  | below, declaration :: rest =>
    (declaration, below + types.words declaration.2) ::
      depthsFrom types (below + types.words declaration.2) rest

def depths (types : TypeTable) (sig : Signature) : List ((LocalVariable × TypeId) × Nat) :=
  depthsFrom types 0 sig.locals

/-- Words of all locals together. -/
def localWords (types : TypeTable) (sig : Signature) : Nat :=
  (sig.locals.map fun declaration => types.words declaration.2).sum

/-- The offset of the parameter with the given number. -/
def parameterOffset (i : Nat) : Int32 := Int32.ofInt (4 * i : Nat)

/-- The offset of a local of the given depth. -/
def localOffset (depth : Nat) : Int32 := Int32.ofInt (-(4 * depth : Nat))

/-- What the procedure's scope holds once its variables are placed. -/
def placed (types : TypeTable) (sig : Signature) : Keyed Name Entry :=
  (sig.parameters.zipIdx.map fun p =>
    (p.1.1.name, .var ⟨p.1.2, p.1.1.byReference, some (parameterOffset p.2)⟩)) ++
  (sig.depths types).map fun d => (d.1.1.name, .var ⟨d.1.2, false, some (localOffset d.2)⟩)

/-- The slots of the parameters once they are placed. -/
def placedSlots (sig : Signature) : List Slot :=
  sig.parameters.zipIdx.map fun p => ⟨p.1.2, p.1.1.byReference, some (UInt32.ofNat (4 * p.2))⟩

/-- What the global scope holds for the procedure once its variables are placed. -/
def areasEntry (types : TypeTable) (sig : Signature) : ProcedureEntry where
  scope := some sig.scope
  parameters := sig.placedSlots
  argumentArea := some (UInt32.ofNat (4 * sig.parameters.length))
  localArea := some (UInt32.ofNat (4 * sig.localWords types))
  outgoing := none

def parameterPlacements (scope : ScopeId) (parameters : List ((Parameter × TypeId) × Nat)) :
    List Placement :=
  parameters.map fun p => .variableAt scope p.1.1.name (parameterOffset p.2)

def localPlacements (scope : ScopeId) (depths : List ((LocalVariable × TypeId) × Nat)) :
    List Placement :=
  depths.map fun d => .variableAt scope d.1.1.name (localOffset d.2)

def areasPlacement (types : TypeTable) (sig : Signature) : Placement :=
  .areas sig.procedure.name (sig.parameters.zipIdx.map fun p => UInt32.ofNat (4 * p.2))
    (UInt32.ofNat (4 * sig.parameters.length)) (UInt32.ofNat (4 * sig.localWords types))

/-- All that is decided when the variables of the procedure are placed. -/
def placements (types : TypeTable) (sig : Signature) : List Placement :=
  parameterPlacements sig.scope sig.parameters.zipIdx ++
    (localPlacements sig.scope (sig.depths types) ++ [sig.areasPlacement types])

end Signature

section
open Signature
variable {types : TypeTable} {scopes : ScopeTree} {scope : ScopeId} {procedure : Name}

private theorem localEntry_of_held {name : Name} {v : VariableEntry} (hh : scopes.held? scope name = some (.var v))
    (position : Position) : localEntry scopes scope position name = pure v := by
  rw [localEntry, hh]
  rfl

/-- Every parameter takes one word. -/
private theorem slotSize_eq (hb : types.Built) {p : Parameter × TypeId}
    (hw : p.1.byReference = false → p.2 = TypeId.int) :
    (VariableEntry.slotSize types ⟨p.2, p.1.byReference, none⟩).toNat = 4 := by
  unfold VariableEntry.slotSize
  split
  · rfl
  · next hr => rw [hw (by simpa using hr), hb.byteSize_eq, hb.words_int]

private theorem placeParameters_ok (hb : types.Built) (parameters : List (Parameter × TypeId))
    (hh : ∀ p ∈ parameters, scopes.held? scope p.1.name = some (.var ⟨p.2, p.1.byReference, none⟩))
    (hw : ∀ p ∈ parameters, p.1.byReference = false → p.2 = TypeId.int) {i : Nat}
    {slots : List UInt32} {last : Nat} {found : List Placement}
    (h : (placeParameters types scopes procedure scope (4 * i) (parameters.map (·.1))).Gives
      (slots, last) found) :
    found = parameterPlacements scope (parameters.zipIdx i) ∧
      slots = (parameters.zipIdx i).map (fun p => UInt32.ofNat (4 * p.2)) ∧
      last = 4 * (i + parameters.length) ∧ (4 * i < 2^31 → last < 2^31) := by
  induction parameters generalizing i slots last found with
  | nil =>
    rw [List.map_nil, placeParameters, Trail.gives_pure] at h
    obtain ⟨h, rfl⟩ := h
    cases h
    exact ⟨rfl, rfl, rfl, id⟩
  | cons p parameters ih =>
    rw [List.map_cons, placeParameters, localEntry_of_held (hh p List.mem_cons_self), pure_bind,
      Trail.gives_leave_bind] at h
    obtain ⟨others, h, rfl⟩ := h
    rw [Trail.gives_report_bind, slotSize_eq hb (hw p List.mem_cons_self), Trail.gives_require_bind] at h
    obtain ⟨hlt, h⟩ := h
    obtain ⟨⟨slots', last'⟩, second, third, hr, hpair, rfl⟩ := Trail.gives_bind.mp h
    obtain ⟨he, rfl⟩ := Trail.gives_pure.mp hpair
    obtain ⟨rfl, rfl⟩ := Prod.mk.inj he
    have hnext : 4 * i + 4 = 4 * (i + 1) := by omega
    rw [hnext] at hr hlt
    obtain ⟨rfl, rfl, rfl, hend⟩ := ih (fun q hq => hh q (List.mem_cons_of_mem _ hq))
      (fun q hq => hw q (List.mem_cons_of_mem _ hq)) hr
    refine ⟨by simp [parameterPlacements, parameterOffset], by simp, ?_, fun _ => hend hlt⟩
    rw [List.length_cons]
    omega

private theorem placeLocals_ok (hb : types.Built) (locals : List (LocalVariable × TypeId))
    (hh : ∀ l ∈ locals, scopes.held? scope l.1.name = some (.var ⟨l.2, false, none⟩)) (below : Nat)
    {last : Nat} {found : List Placement}
    (h : (placeLocals types scopes procedure scope (4 * below) (locals.map (·.1))).Gives last found) :
    found = localPlacements scope (depthsFrom types below locals) ∧
      last = 4 * (below + (locals.map fun l => types.words l.2).sum) ∧
      (4 * below ≤ 2^31 → last ≤ 2^31) := by
  induction locals generalizing below last found with
  | nil =>
    rw [List.map_nil, placeLocals, Trail.gives_pure] at h
    obtain ⟨rfl, rfl⟩ := h
    exact ⟨rfl, rfl, id⟩
  | cons l locals ih =>
    rw [List.map_cons, placeLocals, localEntry_of_held (hh l List.mem_cons_self), pure_bind,
      Trail.gives_require_bind, Trail.gives_leave_bind] at h
    obtain ⟨⟨_, hle⟩, others, h, rfl⟩ := h
    have hnext : 4 * below + (types.byteSize l.2).toNat = 4 * (below + types.words l.2) := by
      rw [hb.byteSize_eq]
      omega
    simp only [hnext] at h hle ⊢
    obtain ⟨rfl, rfl, hend⟩ :=
      ih (fun q hq => hh q (List.mem_cons_of_mem _ hq)) _ (Trail.gives_report_bind.mp h)
    refine ⟨by simp [localPlacements, depthsFrom, localOffset], ?_, fun _ => hend hle⟩
    rw [List.map_cons, List.sum_cons]
    omega

/-- Parameters are refused only if the words of all of them are too many. -/
private theorem placeParameters_refuses (hb : types.Built) (parameters : List (Parameter × TypeId))
    (hh : ∀ p ∈ parameters, scopes.held? scope p.1.name = some (.var ⟨p.2, p.1.byReference, none⟩))
    (hw : ∀ p ∈ parameters, p.1.byReference = false → p.2 = TypeId.int) (i : Nat) :
    Trail.FailsOnly (fun cause => cause = .frameTooLarge procedure ∧ 2^31 ≤ 4 * (i + parameters.length))
      (placeParameters types scopes procedure scope (4 * i) (parameters.map (·.1))) := by
  induction parameters generalizing i with
  | nil => exact .pure _
  | cons p parameters ih =>
    have hrest := ih (fun q hq => hh q (List.mem_cons_of_mem _ hq)) (fun q hq => hw q (List.mem_cons_of_mem _ hq)) (i + 1)
    rw [List.map_cons, placeParameters, localEntry_of_held (hh p List.mem_cons_self), pure_bind,
      slotSize_eq hb (hw p List.mem_cons_self), List.length_cons]
    refine Trail.FailsOnly.bind (.leave _) fun _ _ => Trail.FailsOnly.bind (.report _) fun _ _ => ?_
    refine Trail.FailsOnly.bind (.require fun hlt => ⟨rfl, by omega⟩) fun _ _ => ?_
    refine Trail.FailsOnly.bind (hrest.mono ?_) fun _ _ => .pure _
    rintro cause ⟨rfl, hle⟩
    exact ⟨rfl, by omega⟩

/-- Locals are refused only if the words of all of them are too many. -/
private theorem placeLocals_refuses (hb : types.Built) (locals : List (LocalVariable × TypeId))
    (hh : ∀ l ∈ locals, scopes.held? scope l.1.name = some (.var ⟨l.2, false, none⟩)) (below : Nat) :
    Trail.FailsOnly (fun cause => cause = .frameTooLarge procedure ∧
        2^31 ≤ 4 * (below + (locals.map fun l => types.words l.2).sum))
      (placeLocals types scopes procedure scope (4 * below) (locals.map (·.1))) := by
  induction locals generalizing below with
  | nil => exact .pure _
  | cons l locals ih =>
    have hrest := ih (fun q hq => hh q (List.mem_cons_of_mem _ hq)) (below + types.words l.2)
    have hnext : 4 * below + (types.byteSize l.2).toNat = 4 * (below + types.words l.2) := by
      rw [hb.byteSize_eq]
      omega
    simp only [List.map_cons, List.sum_cons]
    rw [placeLocals, localEntry_of_held (hh l List.mem_cons_self), pure_bind]
    simp only [hnext]
    refine Trail.FailsOnly.bind (.require fun hlt => ⟨rfl, ?_⟩) fun _ _ => ?_
    · rw [hb.byteSize_eq] at hlt
      omega
    refine Trail.FailsOnly.bind (.leave _) fun _ _ => Trail.FailsOnly.bind (.report _) fun _ _ => hrest.mono ?_
    rintro cause ⟨rfl, hle⟩
    exact ⟨rfl, by omega⟩

/-- The areas in which a procedure's variables are placed are addressable. -/
structure Signature.Bounded (types : TypeTable) (sig : Signature) : Prop where
  parameters : 4 * sig.parameters.length < 2^31
  locals : 4 * sig.localWords types ≤ 2^31

/-- What the placing of a procedure reads from the scopes. -/
structure Unplaced (types : TypeTable) (scopes : ScopeTree) (sig : Signature) : Prop where
  built : types.Built
  fits : sig.Fits types
  scope : (scopes.procedure? sig.procedure.name).bind (·.scope) = some sig.scope
  held : ∀ name, scopes.held? sig.scope name = sig.own.at? name

theorem Declared.unplaced {context : Context} {sigs : List Signature} (h : Declared context sigs)
    {sig : Signature} (hs : sig ∈ sigs) : Unplaced context.types context.scopes sig where
  built := h.built
  fits := h.fits sig hs
  scope := by rw [h.scoped.procedure?_of_mem hs]; rfl
  held := h.scoped.held sig hs

namespace Unplaced
variable {sig : Signature}

private theorem parameter (h : Unplaced types scopes sig) {p : Parameter × TypeId} (hp : p ∈ sig.parameters) :
    scopes.held? sig.scope p.1.name = some (.var ⟨p.2, p.1.byReference, none⟩) := by
  rw [h.held]
  exact Keyed.at?_of_mem h.fits.distinct
    (List.mem_append_left _ (List.mem_map.mpr ⟨p, hp, rfl⟩))

theorem localVariable (h : Unplaced types scopes sig) {l : LocalVariable × TypeId} (hl : l ∈ sig.locals) :
    scopes.held? sig.scope l.1.name = some (.var ⟨l.2, false, none⟩) := by
  rw [h.held]
  exact Keyed.at?_of_mem h.fits.distinct
    (List.mem_append_right _ (List.mem_map.mpr ⟨l, hl, rfl⟩))

/-- A procedure is placed by its signature alone. -/
theorem placeVariables_ok (h : Unplaced types scopes sig) {u : Unit} {found : List Placement}
    (hg : (sig.procedure.placeVariables types scopes).Gives u found) :
    found = sig.placements types ∧ sig.Bounded types := by
  unfold Procedure.placeVariables Procedure.localScope at hg
  rw [Trail.gives_expect_bind] at hg
  obtain ⟨scope, hs, hg⟩ := hg
  rw [h.scope] at hs
  cases hs
  obtain ⟨⟨slots, last⟩, first, rest, hp, hrest, rfl⟩ := Trail.gives_bind.mp hg
  obtain ⟨area, second, others, hl, hleave, rfl⟩ := Trail.gives_bind.mp hrest
  obtain ⟨final, hreport, rfl⟩ := Trail.gives_leave_bind.mp hleave
  obtain rfl := Trail.gives_report.mp hreport
  rw [← h.fits.parameters_eq] at hp
  rw [← h.fits.locals_eq] at hl
  obtain ⟨rfl, rfl, rfl, hlast⟩ := placeParameters_ok (i := 0) h.built sig.parameters
    (fun p hp => h.parameter hp) (fun p hp => (h.fits.parameters p hp).2) hp
  obtain ⟨rfl, rfl, harea⟩ :=
    placeLocals_ok h.built sig.locals (fun l hl => h.localVariable hl) 0 hl
  refine ⟨by simp [placements, areasPlacement, depths, localWords], ?_, ?_⟩
  · simpa using hlast (by decide)
  · simpa [localWords] using harea (by decide)

/-- A procedure's variables are refused only if its parameters or its locals are too large. -/
theorem placeVariables_refuses (h : Unplaced types scopes sig) :
    Trail.FailsOnly (fun cause => cause = .frameTooLarge sig.procedure.name ∧
        (2^31 ≤ 4 * sig.parameters.length ∨ 2^31 ≤ 4 * sig.localWords types))
      (sig.procedure.placeVariables types scopes) := by
  unfold Procedure.placeVariables Procedure.localScope
  rw [h.scope]
  refine Trail.FailsOnly.bind (.pure sig.scope) fun scope hscope => ?_
  cases hscope
  have hparameters : Trail.FailsOnly _ (placeParameters types scopes sig.procedure.name sig.scope 0 _) :=
    placeParameters_refuses h.built sig.parameters (fun p hp => h.parameter hp) (fun p hp => (h.fits.parameters p hp).2) 0
  have hlocals : Trail.FailsOnly _ (placeLocals types scopes sig.procedure.name sig.scope 0 _) :=
    placeLocals_refuses h.built sig.locals (fun l hl => h.localVariable hl) 0
  rw [h.fits.parameters_eq] at hparameters
  rw [h.fits.locals_eq] at hlocals
  refine Trail.FailsOnly.bind (hparameters.mono ?_) fun _ _ => ?_
  · rintro cause ⟨rfl, hle⟩
    exact ⟨rfl, .inl (by omega)⟩
  refine Trail.FailsOnly.bind (hlocals.mono ?_) fun _ _ => Trail.FailsOnly.bind (.leave _) fun _ _ => .report _
  rintro cause ⟨rfl, hle⟩
  exact ⟨rfl, .inr (by rwa [Nat.zero_add] at hle)⟩

end Unplaced

end

namespace Placement

/-- The scope and the name of the entry that a placement changes. -/
def target : Placement → ScopeId × Name
  | .variableAt scope name _ => (scope, name)
  | .areas procedure _ _ _ | .outgoing procedure _ => (0, procedure)

/-- How a placement changes its entry. -/
def change : Placement → Entry → Entry
  | .variableAt _ _ offset => Entry.mapVar fun entry => { entry with offset := some offset }
  | .areas _ slots argumentArea localArea => Entry.mapProc fun entry =>
    { entry with
      parameters := setOffsets entry.parameters slots
      argumentArea := some argumentArea
      localArea := some localArea }
  | .outgoing _ area => Entry.mapProc fun entry => { entry with outgoing := some area }

variable {scopes : ScopeTree}

theorem held?_put (p : Placement) (scope : ScopeId) (name : Name) :
    (put scopes p).held? scope name =
      if p.target = (scope, name) then (scopes.held? scope name).map p.change
      else scopes.held? scope name := by
  cases p <;> simp [put, target, change, ScopeTree.held?_adjust, ScopeTree.globalScope]

private theorem parent?_putAll (ps : List Placement) (scope : ScopeId) :
    (ps.foldl put scopes).parent? scope = scopes.parent? scope := by
  induction ps generalizing scopes with
  | nil => rfl
  | cons p ps ih =>
    rw [List.foldl_cons, ih]
    cases p <;> exact ScopeTree.parent?_adjustEntries _ _ _

theorem held?_putAll_of_not_mem {ps : List Placement} {scope : ScopeId} {name : Name}
    (h : (scope, name) ∉ ps.map target) :
    (ps.foldl put scopes).held? scope name = scopes.held? scope name := by
  induction ps generalizing scopes with
  | nil => rfl
  | cons p ps ih =>
    rw [List.map_cons, List.mem_cons, not_or] at h
    rw [List.foldl_cons, ih h.2, held?_put, if_neg (Ne.symm h.1)]

/-- If no two placements change the same entry, each changes the entry as it was. -/
theorem held?_putAll_of_mem {ps : List Placement} {p : Placement} {scope : ScopeId} {name : Name}
    (hn : (ps.map target).Nodup) (hp : p ∈ ps) (ht : p.target = (scope, name)) :
    (ps.foldl put scopes).held? scope name = (scopes.held? scope name).map p.change := by
  induction ps generalizing scopes with
  | nil => cases hp
  | cons q ps ih =>
    rw [List.map_cons, List.nodup_cons] at hn
    rw [List.foldl_cons]
    rcases List.mem_cons.mp hp with rfl | hp
    · rw [held?_putAll_of_not_mem (ht ▸ hn.1), held?_put, if_pos ht]
    · have hq : q.target ≠ (scope, name) := by
        rw [← ht]
        rintro he
        exact hn.1 (he ▸ List.mem_map_of_mem hp)
      rw [ih hn.2 hp, held?_put, if_neg hq]

end Placement

namespace Signature

/-- The names of the parameters and locals. -/
def ownNames (sig : Signature) : List Name :=
  sig.parameters.map (·.1.name) ++ sig.locals.map (·.1.name)

theorem map_fst_own (sig : Signature) : sig.own.map (·.1) = sig.ownNames := by
  unfold own ownNames
  rw [List.map_append, List.map_map, List.map_map]
  rfl

theorem map_zipIdx_fst {α β : Type} (f : α → β) (xs : List α) (i : Nat) :
    (xs.zipIdx i).map (fun p => f p.1) = xs.map f := by
  induction xs generalizing i with
  | nil => rfl
  | cons x xs ih => rw [List.zipIdx_cons, List.map_cons, List.map_cons, ih]

theorem map_depthsFrom_fst {β : Type} (f : LocalVariable × TypeId → β) (types : TypeTable)
    (below : Nat) (locals : List (LocalVariable × TypeId)) :
    (depthsFrom types below locals).map (fun d => f d.1) = locals.map f := by
  induction locals generalizing below with
  | nil => rfl
  | cons l locals ih => rw [depthsFrom, List.map_cons, List.map_cons, ih]

theorem map_fst_placed (types : TypeTable) (sig : Signature) :
    (sig.placed types).map (·.1) = sig.ownNames := by
  unfold placed ownNames depths
  rw [List.map_append, List.map_map, List.map_map]
  congr 1
  · exact map_zipIdx_fst (fun p : Parameter × TypeId => p.1.name) _ _
  · exact map_depthsFrom_fst (fun l : LocalVariable × TypeId => l.1.name) _ _ _

private theorem map_target_placements (types : TypeTable) (sig : Signature) :
    (sig.placements types).map (·.target) =
      sig.ownNames.map (fun name => (sig.scope, name)) ++ [(0, sig.procedure.name)] := by
  unfold placements parameterPlacements localPlacements ownNames depths
  rw [List.map_append, List.map_append, List.map_map, List.map_map, List.map_append, List.map_map,
    List.map_map, List.append_assoc]
  congr 1
  · exact map_zipIdx_fst (fun p : Parameter × TypeId => (sig.scope, p.1.name)) _ _
  · congr 1
    exact map_depthsFrom_fst (fun l : LocalVariable × TypeId => (sig.scope, l.1.name)) _ _ _

private theorem setOffsets_slots (sig : Signature) :
    setOffsets sig.slots (sig.parameters.zipIdx.map fun p => UInt32.ofNat (4 * p.2)) =
      sig.placedSlots := by
  unfold slots placedSlots
  generalize sig.parameters = parameters, 0 = i
  induction parameters generalizing i with
  | nil => rfl
  | cons p parameters ih =>
    rw [List.zipIdx_cons, List.map_cons, List.map_cons, List.map_cons, setOffsets, ih]

end Signature

section
open Signature
variable {context : Context} {sigs : List Signature}

/-- No entry is changed twice when the variables of all procedures are placed. -/
theorem Declared.targets_nodup (h : Declared context sigs) :
    ((sigs.flatMap (·.placements context.types)).map (·.target)).Nodup := by
  rw [List.map_flatMap]
  simp only [map_target_placements]
  rw [List.nodup_flatMap]
  constructor
  · intro sig hsig
    rw [List.nodup_append]
    refine ⟨?_, by simp, ?_⟩
    · apply List.Nodup.map
      · intro a b hab
        exact (Prod.mk.inj hab).2
      · rw [← map_fst_own]
        exact (h.fits sig hsig).distinct
    · rintro a ha b hb rfl
      cases List.mem_singleton.mp hb
      obtain ⟨name, _, he⟩ := List.mem_map.mp ha
      exact Nat.ne_of_gt (h.scopes sig hsig).1 (Prod.mk.inj he).1
  · have hs := List.pairwise_map.mp h.distinct
    have hn := List.pairwise_map.mp h.names
    refine (hs.and hn).imp_of_mem ?_
    rintro a b ha hb ⟨hscope, hname⟩ target hta htb
    rcases List.mem_append.mp hta with hta | hta <;> rcases List.mem_append.mp htb with htb | htb
    · obtain ⟨_, _, rfl⟩ := List.mem_map.mp hta
      obtain ⟨_, _, he⟩ := List.mem_map.mp htb
      exact hscope (Prod.mk.inj he).1.symm
    · cases List.mem_singleton.mp htb
      obtain ⟨_, _, he⟩ := List.mem_map.mp hta
      exact Nat.ne_of_gt (h.scopes a ha).1 (Prod.mk.inj he).1
    · cases List.mem_singleton.mp hta
      obtain ⟨_, _, he⟩ := List.mem_map.mp htb
      exact Nat.ne_of_gt (h.scopes b hb).1 (Prod.mk.inj he).1
    · cases List.mem_singleton.mp hta
      exact hname (Prod.mk.inj (List.mem_singleton.mp htb)).2

/-- Placing variables changes the variables and the entries of procedures only. -/
private theorem target_cases {name : Name} {scope : ScopeId}
    (ht : (scope, name) ∈ (sigs.flatMap (·.placements context.types)).map (·.target)) :
    ∃ sig ∈ sigs, scope = sig.scope ∧ name ∈ sig.ownNames ∨ scope = 0 ∧ name = sig.procedure.name := by
  rw [List.map_flatMap] at ht
  obtain ⟨sig, hsig, ht⟩ := List.mem_flatMap.mp ht
  rw [map_target_placements] at ht
  refine ⟨sig, hsig, ?_⟩
  rcases List.mem_append.mp ht with ht | ht
  · obtain ⟨_, hn, he⟩ := List.mem_map.mp ht
    cases he
    exact .inl ⟨rfl, hn⟩
  · cases List.mem_singleton.mp ht
    exact .inr ⟨rfl, rfl⟩

private theorem placed_variable (h : Declared context sigs) {sig : Signature} (hs : sig ∈ sigs)
    (name : Name) :
    ((sigs.flatMap (·.placements context.types)).foldl Placement.put context.scopes).held?
      sig.scope name = (sig.placed context.types).at? name := by
  have hput : ∀ {p v}, p ∈ sig.placements context.types → p.target = (sig.scope, name) →
      sig.own.at? name = some (.var v) →
      ((sigs.flatMap (·.placements context.types)).foldl Placement.put context.scopes).held?
        sig.scope name = some (p.change (.var v)) := by
    intro p v hp ht hv
    rw [Placement.held?_putAll_of_mem h.targets_nodup (List.mem_flatMap.mpr ⟨sig, hs, hp⟩) ht,
      h.scoped.held sig hs, hv, Option.map_some]
  cases hat : (sig.placed context.types).at? name with
  | none =>
    rw [Keyed.at?_eq_none_iff, map_fst_placed] at hat
    rw [Placement.held?_putAll_of_not_mem, h.scoped.held sig hs, Keyed.at?_eq_none_iff, map_fst_own]
    · exact hat
    · intro ht
      obtain ⟨other, ho, ⟨he, hn⟩ | ⟨he, _⟩⟩ := target_cases ht
      · rw [h.scoped.eq_of_scope hs ho he] at hat
        exact hat hn
      · exact Nat.ne_of_gt (h.scopes sig hs).1 he
  | some entry =>
    rcases List.mem_append.mp (Keyed.mem_of_at? hat) with hm | hm
    · obtain ⟨p, hp, he⟩ := List.mem_map.mp hm
      cases he
      have hown := (h.unplaced hs).parameter (List.fst_mem_of_mem_zipIdx hp)
      rw [h.scoped.held sig hs] at hown
      exact hput (List.mem_append_left _ (List.mem_map.mpr ⟨p, hp, rfl⟩)) rfl hown
    · obtain ⟨d, hd, he⟩ := List.mem_map.mp hm
      cases he
      have hl : d.1 ∈ sig.locals := by
        have := List.mem_map_of_mem (f := fun d => d.1) hd
        rw [depths, map_depthsFrom_fst (fun l => l), List.map_id'] at this
        exact this
      have hown := (h.unplaced hs).localVariable hl
      rw [h.scoped.held sig hs] at hown
      exact hput (List.mem_append_right _ (List.mem_append_left _ (List.mem_map.mpr ⟨d, hd, rfl⟩)))
        rfl hown

/-- Placements of which exactly one changes the entry of each procedure. -/
theorem Scoped.put {scopes : ScopeTree} {own own' : Signature → Keyed Name Entry}
    {entryOf entryOf' : Signature → ProcedureEntry} (h : Scoped scopes sigs own entryOf)
    {ps : List Placement} (hn : (ps.map (·.target)).Nodup)
    (hsig : ∀ sig ∈ sigs, ∃ p ∈ ps, p.target = (0, sig.procedure.name) ∧
      p.change (.proc (entryOf sig)) = .proc (entryOf' sig))
    (hscope : ∀ sig ∈ sigs, (entryOf' sig).scope = some sig.scope)
    (honly : ∀ name, (0, name) ∈ ps.map (·.target) → ∃ sig ∈ sigs, name = sig.procedure.name)
    (hown : ∀ sig ∈ sigs, ∀ name,
      (ps.foldl Placement.put scopes).held? sig.scope name = (own' sig).at? name) :
    Scoped (ps.foldl Placement.put scopes) sigs own' entryOf' := by
  have hold : ∀ sig ∈ sigs, scopes.held? 0 sig.procedure.name = some (.proc (entryOf sig)) :=
    fun sig hs => h.procedure.mpr (.inr ⟨sig, hs, rfl, rfl⟩)
  have hnew : ∀ sig ∈ sigs,
      (ps.foldl Placement.put scopes).held? 0 sig.procedure.name = some (.proc (entryOf' sig)) := by
    intro sig hs
    obtain ⟨p, hp, ht, hc⟩ := hsig sig hs
    rw [Placement.held?_putAll_of_mem hn hp ht, hold sig hs, Option.map_some, hc]
  have hsame : ∀ name, (∀ sig ∈ sigs, name ≠ sig.procedure.name) →
      (ps.foldl Placement.put scopes).held? 0 name = scopes.held? 0 name := by
    intro name hne
    apply Placement.held?_putAll_of_not_mem
    intro hm
    obtain ⟨sig, hs, he⟩ := honly name hm
    exact hne sig hs he
  refine ⟨?_, ?_, ?_, ?_, hown, hscope, h.distinct, h.names⟩
  · rw [Placement.parent?_putAll]
    exact h.outermost
  · intro name v hv
    by_cases hname : ∃ sig ∈ sigs, name = sig.procedure.name
    · obtain ⟨sig, hs, rfl⟩ := hname
      rw [hnew sig hs] at hv
      cases hv
    · push Not at hname
      rw [hsame name hname] at hv
      exact h.no_global_variable name v hv
  · intro name entry
    by_cases hname : ∃ sig ∈ sigs, name = sig.procedure.name
    · obtain ⟨sig, hs, rfl⟩ := hname
      rw [hnew sig hs]
      constructor
      · intro he
        exact .inr ⟨sig, hs, rfl, Entry.proc.inj (Option.some.inj he)⟩
      · rintro (⟨p, hp, hname, _⟩ | ⟨other, ho, hname, rfl⟩)
        · exact absurd hname (h.ne_library hs hp)
        · rw [h.eq_of_name ho hs hname]
    · push Not at hname
      -- A name of no procedure of the program can only be one of the library, before as behind.
      have hlibrary : ∀ entries : Signature → ProcedureEntry, GlobalProcedure sigs entries name entry ↔
          ∃ p ∈ library, p.name = name ∧ p.entry = entry :=
        fun _ => or_iff_left fun ⟨sig, hs, he, _⟩ => hname sig hs he.symm
      rw [hsame name hname, h.procedure, hlibrary, hlibrary]
  · intro sig hs
    rw [Placement.parent?_putAll]
    exact h.inside sig hs

/-- Once the variables of all procedures are placed. -/
theorem Declared.placed (h : Declared context sigs) :
    Scoped ((sigs.flatMap (·.placements context.types)).foldl Placement.put context.scopes) sigs
      (Signature.placed context.types) (areasEntry context.types) := by
  refine h.scoped.put h.targets_nodup ?_ (fun _ _ => rfl) ?_ fun sig hs => placed_variable h hs
  · intro sig hs
    refine ⟨sig.areasPlacement context.types, ?_, rfl, ?_⟩
    · exact List.mem_flatMap.mpr ⟨sig, hs, by simp [placements]⟩
    · simp only [areasPlacement, Placement.change, Entry.mapProc, entry, setOffsets_slots, areasEntry]
  · intro name hm
    obtain ⟨sig, hs, ⟨he, _⟩ | ⟨_, he⟩⟩ := target_cases hm
    · exact absurd he (Nat.ne_of_lt (h.scopes sig hs).1)
    · exact ⟨sig, hs, he⟩

end
end SplLang
