import SplLang.Proofs.Placed

/-! The area that each procedure reserves for the arguments of its calls: it holds the arguments
of every call in the body, and it is missing only if there is none. -/
namespace SplLang

mutual

/-- The names that the calls in a statement are made by. -/
def Stmt.callees : Stmt → List Name
  | .assign _ _ _ | .empty _ => []
  | .ifThen _ _ thenPart => thenPart.callees
  | .ifElse _ _ thenPart elsePart => thenPart.callees ++ elsePart.callees
  | .whileDo _ _ body => body.callees
  | .call _ callee _ => [callee]
  | .block _ body => allCallees body

def allCallees : List Stmt → List Name
  | [] => []
  | stmt :: rest => stmt.callees ++ allCallees rest

end

namespace OutgoingArea

/-- The area exists and holds arguments of the given size. -/
def Covers (area : OutgoingArea) (size : UInt32) : Prop := area.hasCalls ∧ size ≤ area.size

theorem covers_widen (area : OutgoingArea) (size : UInt32) : (area.widen size).Covers size := by
  cases area with
  | noCalls => exact ⟨rfl, UInt32.le_refl _⟩
  | bytes held =>
    refine ⟨rfl, ?_⟩
    show size ≤ if held ≤ size then size else held
    split
    · exact UInt32.le_refl _
    · next h => exact UInt32.le_of_lt (UInt32.not_le.mp h)

private theorem Covers.widen {area : OutgoingArea} {size : UInt32} (h : area.Covers size) (other : UInt32) :
    (area.widen other).Covers size := by
  cases area with
  | noCalls => cases h.1
  | bytes held =>
    refine ⟨rfl, UInt32.le_trans h.2 ?_⟩
    show held ≤ if held ≤ other then other else held
    split
    · next h => exact h
    · exact UInt32.le_refl _

end OutgoingArea

/-- Every procedure called is known, and the area holds its arguments. -/
def CallsCovered (scopes : ScopeTree) (scope : ScopeId) (area : OutgoingArea) (callees : List Name) :
    Prop :=
  ∀ callee ∈ callees, ∃ size,
    (scopes.callee? scope callee).bind (·.argumentArea) = some size ∧ area.Covers size

/-- The area is the one before, or as large as the arguments of some call. -/
def SizedBy (scopes : ScopeTree) (scope : ScopeId) (before area : OutgoingArea) (callees : List Name) :
    Prop :=
  area = before ∨ ∃ callee ∈ callees,
    (scopes.callee? scope callee).bind (·.argumentArea) = some area.size

section
variable {scopes : ScopeTree} {scope : ScopeId} {allowed : Cause → Prop}

theorem OutgoingArea.widen_size (area : OutgoingArea) (size : UInt32) :
    area.widen size = area ∨ (area.widen size).size = size := by
  cases area with
  | noCalls => exact .inr rfl
  | bytes held =>
    show OutgoingArea.bytes (if held ≤ size then size else held) = .bytes held ∨
      (if held ≤ size then size else held) = size
    split
    · exact .inr rfl
    · exact .inl rfl

theorem SizedBy.trans {before middle area : OutgoingArea} {callees others : List Name}
    (h : SizedBy scopes scope before middle callees) (h' : SizedBy scopes scope middle area others) :
    SizedBy scopes scope before area (callees ++ others) := by
  rcases h' with h' | ⟨callee, hc, hs⟩
  · rcases h with h | ⟨callee, hc, hs⟩
    · exact .inl (h'.trans h)
    · exact .inr ⟨callee, List.mem_append_left _ hc, h' ▸ hs⟩
  · exact .inr ⟨callee, List.mem_append_right _ hc, hs⟩

theorem CallsCovered.append {area : OutgoingArea} {callees others : List Name}
    (h : CallsCovered scopes scope area callees) (h' : CallsCovered scopes scope area others) :
    CallsCovered scopes scope area (callees ++ others) := by
  intro callee hc
  rcases List.mem_append.mp hc with hc | hc
  · exact h callee hc
  · exact h' callee hc

theorem CallsCovered.mono {area wider : OutgoingArea} {callees : List Name}
    (h : CallsCovered scopes scope area callees)
    (hw : ∀ {size}, area.Covers size → wider.Covers size) :
    CallsCovered scopes scope wider callees := by
  intro callee hc
  obtain ⟨size, hs, ha⟩ := h callee hc
  exact ⟨size, hs, hw ha⟩

/-- Bytes of the area, if there are calls. -/
def OutgoingArea.bytes? : OutgoingArea → Option Nat
  | .noCalls => none
  | .bytes size => some size.toNat

/-- An area that covers every call and is no larger than some call is exactly as large as the largest one. -/
theorem SizedBy.bytes?_eq {area : OutgoingArea} {callees : List Name} {sizes : List Nat}
    (h : SizedBy scopes scope .noCalls area callees) (hc : CallsCovered scopes scope area callees)
    (hsizes : callees.map (fun callee =>
        (scopes.callee? scope callee).map fun entry => entry.argumentArea.map UInt32.toNat) =
      sizes.map fun size => some (some size)) :
    area.bytes? = sizes.max? := by
  have hsize : ∀ {n : Nat}, n ∈ sizes ↔ ∃ callee ∈ callees, ∃ size : UInt32,
      (scopes.callee? scope callee).bind (·.argumentArea) = some size ∧ size.toNat = n := by
    intro n
    rw [← List.mem_map_of_injective (f := fun size : Nat => some (some size)) fun _ _ he => by simpa using he,
      ← hsizes, List.mem_map]
    simp only [Option.map_eq_some_iff, Option.bind_eq_some_iff]
    constructor
    · rintro ⟨callee, hm, entry, he, size, hs, rfl⟩
      exact ⟨callee, hm, size, ⟨entry, he, hs⟩, rfl⟩
    · rintro ⟨callee, hm, size, ⟨entry, he, hs⟩, rfl⟩
      exact ⟨callee, hm, entry, he, size, hs, rfl⟩
  cases area with
  | noCalls =>
    have hnone : sizes = [] := by
      refine List.eq_nil_iff_forall_not_mem.mpr fun n hn => ?_
      obtain ⟨callee, hm, _⟩ := hsize.mp hn
      obtain ⟨_, _, hcalls, _⟩ := hc callee hm
      cases hcalls
    rw [hnone]
    rfl
  | bytes size =>
    refine (List.max?_eq_some_iff.mpr ⟨hsize.mpr ?_, fun n hn => ?_⟩).symm
    · rcases h with h | ⟨callee, hm, hs⟩
      · cases h
      · exact ⟨callee, hm, size, hs, rfl⟩
    · obtain ⟨callee, hm, other, ho, rfl⟩ := hsize.mp hn
      obtain ⟨same, hs, _, hle⟩ := hc callee hm
      rw [ho] at hs
      cases hs
      exact UInt32.le_iff_toNat_le.mp hle

private theorem OutgoingArea.eq_of_covers {area other : OutgoingArea} (h : area = .noCalls ∨ other.Covers area.size)
    (h' : other = .noCalls ∨ area.Covers other.size) : area = other := by
  rcases h with rfl | ⟨hcalls, hle⟩
  · rcases h' with rfl | ⟨hcalls', _⟩
    · rfl
    · cases hcalls'
  · rcases h' with rfl | ⟨hcalls', hle'⟩
    · cases hcalls
    · cases area with
      | noCalls => cases hcalls'
      | bytes size =>
        cases other with
        | noCalls => cases hcalls
        | bytes size' => exact congrArg _ (UInt32.le_antisymm hle hle')

private theorem SizedBy.covered {area other : OutgoingArea} {callees : List Name}
    (h : SizedBy scopes scope .noCalls area callees) (hc : CallsCovered scopes scope other callees) :
    area = .noCalls ∨ other.Covers area.size := by
  rcases h with h | ⟨callee, hm, hs⟩
  · exact .inl h
  · obtain ⟨size, hsize, hcovers⟩ := hc callee hm
    rw [hs] at hsize
    cases hsize
    exact .inr hcovers

/-- Calls of which each has arguments of the same size in both scopes have the same area. -/
theorem SizedBy.unique {scopes' : ScopeTree} {scope' : ScopeId} {area area' : OutgoingArea} {callees : List Name}
    (hsame : ∀ name, (scopes'.callee? scope' name).bind (·.argumentArea) =
      (scopes.callee? scope name).bind (·.argumentArea))
    (h : SizedBy scopes scope .noCalls area callees) (hc : CallsCovered scopes scope area callees)
    (h' : SizedBy scopes' scope' .noCalls area' callees) (hc' : CallsCovered scopes' scope' area' callees) :
    area' = area := by
  unfold SizedBy at h'
  unfold CallsCovered at hc'
  simp only [hsame] at h' hc'
  exact OutgoingArea.eq_of_covers (SizedBy.covered h' hc) (h.covered hc')

mutual

/-- The area that results still holds what the one before held, and all arguments of the statement. -/
theorem Stmt.outgoing_ok (s : Stmt) {area result : OutgoingArea} {found : List Placement}
    (h : (s.outgoing scopes scope area).Gives result found) :
    found = [] ∧ (∀ {size}, area.Covers size → result.Covers size) ∧
      CallsCovered scopes scope result s.callees ∧ SizedBy scopes scope area result s.callees := by
  cases s with
  | assign position target value =>
    rw [Stmt.outgoing] at h
    obtain ⟨rfl, rfl⟩ := Trail.gives_pure.mp h
    exact ⟨rfl, id, by simp [CallsCovered, Stmt.callees], .inl rfl⟩
  | ifThen position condition thenPart =>
    rw [Stmt.outgoing] at h
    rw [Stmt.callees]
    exact thenPart.outgoing_ok h
  | ifElse position condition thenPart elsePart =>
    rw [Stmt.outgoing, Trail.gives_bind] at h
    obtain ⟨middle, first, rest, hp, he, rfl⟩ := h
    obtain ⟨rfl, hpw, hpc, hps⟩ := thenPart.outgoing_ok hp
    obtain ⟨rfl, hew, hec, hes⟩ := elsePart.outgoing_ok he
    exact ⟨rfl, fun ha => hew (hpw ha), (hpc.mono hew).append hec, hps.trans hes⟩
  | whileDo position condition body =>
    rw [Stmt.outgoing] at h
    rw [Stmt.callees]
    exact body.outgoing_ok h
  | call position callee arguments =>
    rw [Stmt.outgoing, Trail.gives_expect_bind] at h
    obtain ⟨size, hs, h⟩ := h
    obtain ⟨rfl, rfl⟩ := Trail.gives_pure.mp h
    refine ⟨rfl, fun ha => ha.widen size, ?_, ?_⟩
    · intro other ho
      cases List.mem_singleton.mp ho
      exact ⟨size, hs, area.covers_widen size⟩
    · rcases area.widen_size size with he | he
      · exact .inl he
      · exact .inr ⟨callee, List.mem_singleton_self _, hs.trans (congrArg some he.symm)⟩
  | block position body =>
    rw [Stmt.outgoing] at h
    rw [Stmt.callees]
    exact outgoingAll_ok body h
  | empty position =>
    rw [Stmt.outgoing] at h
    obtain ⟨rfl, rfl⟩ := Trail.gives_pure.mp h
    exact ⟨rfl, id, by simp [CallsCovered, Stmt.callees], .inl rfl⟩

theorem outgoingAll_ok (body : List Stmt) {area result : OutgoingArea} {found : List Placement}
    (h : (outgoingAll scopes scope area body).Gives result found) :
    found = [] ∧ (∀ {size}, area.Covers size → result.Covers size) ∧
      CallsCovered scopes scope result (allCallees body) ∧
      SizedBy scopes scope area result (allCallees body) := by
  cases body with
  | nil =>
    rw [outgoingAll] at h
    obtain ⟨rfl, rfl⟩ := Trail.gives_pure.mp h
    exact ⟨rfl, id, by simp [CallsCovered, allCallees], .inl rfl⟩
  | cons stmt rest =>
    rw [outgoingAll, Trail.gives_bind] at h
    obtain ⟨middle, first, others, hs, hr, rfl⟩ := h
    obtain ⟨rfl, hsw, hsc, hss⟩ := stmt.outgoing_ok hs
    obtain ⟨rfl, hrw, hrc, hrs⟩ := outgoingAll_ok rest hr
    exact ⟨rfl, fun ha => hrw (hsw ha), (hsc.mono hrw).append hrc, hss.trans hrs⟩

end

/-- Every procedure that is called has its arguments placed. -/
def CallsSized (scopes : ScopeTree) (scope : ScopeId) (callees : List Name) : Prop :=
  ∀ callee ∈ callees, ∃ size, (scopes.callee? scope callee).bind (·.argumentArea) = some size

mutual

private theorem Stmt.outgoing_failsOnly (s : Stmt)
    (h : CallsSized scopes scope s.callees) (area : OutgoingArea) :
    Trail.FailsOnly allowed (s.outgoing scopes scope area) := by
  cases s with
  | assign position target value =>
    rw [Stmt.outgoing]
    exact .pure _
  | ifThen position condition thenPart =>
    rw [Stmt.outgoing]
    exact thenPart.outgoing_failsOnly h _
  | ifElse position condition thenPart elsePart =>
    obtain ⟨hp, he⟩ := List.forall_mem_append.mp h
    rw [Stmt.outgoing]
    exact (thenPart.outgoing_failsOnly hp _).bind fun _ _ => elsePart.outgoing_failsOnly he _
  | whileDo position condition body =>
    rw [Stmt.outgoing]
    exact body.outgoing_failsOnly h _
  | call position callee arguments =>
    obtain ⟨size, hs⟩ := h callee (List.mem_singleton_self _)
    rw [Stmt.outgoing, hs]
    exact Trail.FailsOnly.bind (.pure _) fun _ _ => .pure _
  | block position body =>
    rw [Stmt.outgoing]
    exact outgoingAll_failsOnly body h _
  | empty position =>
    rw [Stmt.outgoing]
    exact .pure _

private theorem outgoingAll_failsOnly (body : List Stmt)
    (h : CallsSized scopes scope (allCallees body)) (area : OutgoingArea) :
    Trail.FailsOnly allowed (outgoingAll scopes scope area body) := by
  cases body with
  | nil =>
    rw [outgoingAll]
    exact .pure _
  | cons stmt rest =>
    obtain ⟨hs, hr⟩ := List.forall_mem_append.mp h
    rw [outgoingAll]
    exact (stmt.outgoing_failsOnly hs _).bind fun _ _ => outgoingAll_failsOnly rest hr _

end

/-- Statements whose calls are all sized come to an area that covers them and is no larger than one of them. -/
theorem outgoingAll_sized {body : List Stmt} (hc : CallsSized scopes scope (allCallees body)) :
    ∃ area, (outgoingAll scopes scope .noCalls body).result = .ok area ∧
      CallsCovered scopes scope area (allCallees body) ∧ SizedBy scopes scope .noCalls area (allCallees body) := by
  have hfails : Trail.FailsOnly (fun _ => False) (outgoingAll scopes scope .noCalls body) :=
    outgoingAll_failsOnly _ hc _
  cases hr : (outgoingAll scopes scope .noCalls body).result with
  | error d => exact absurd (hfails d hr) id
  | ok area => exact ⟨area, rfl, (outgoingAll_ok _ (Trail.gives_of_ok hr)).2.2⟩

/-- The area found for the calls of the procedure. -/
def Signature.outgoing (scopes : ScopeTree) (sig : Signature) : OutgoingArea :=
  match (outgoingAll scopes sig.scope .noCalls sig.procedure.body).result with
  | .ok area => area
  | .error _ => .noCalls

/-- What the global scope holds for the procedure once its frame is laid out. -/
def Signature.framedEntry (types : TypeTable) (area : Signature → OutgoingArea) (sig : Signature) :
    ProcedureEntry :=
  { sig.areasEntry types with outgoing := some (area sig) }

/-- The frame of the procedure, if it is addressable. -/
def Signature.frame? (types : TypeTable) (area : Signature → OutgoingArea) (sig : Signature) :
    Option FrameLayout :=
  FrameLayout.of? (UInt32.ofNat (4 * sig.localWords types)) (area sig)

end

theorem FrameLayout.of?_eq_none_iff {localArea : UInt32} {area : OutgoingArea} :
    FrameLayout.of? localArea area = none ↔ 2^31 ≤ exactSize localArea area := by
  unfold of?
  simp only [ite_eq_right_iff, reduceCtorEq, imp_false, Nat.not_lt]
  exact Iff.rfl

/-- The sizes and offsets in a frame are the exact ones. -/
theorem FrameLayout.of?_exact {localArea : UInt32} {area : OutgoingArea} {frame : FrameLayout}
    (h : FrameLayout.of? localArea area = some frame) :
    frame.size.toNat = exactSize localArea area ∧ frame.savedFramePointer.toNat = area.bytes?.elim 0 (· + 4) ∧
      frame.savedReturnAddress.map Int32.toInt = area.bytes?.map fun _ => -(localArea.toNat + 8 : Int) := by
  have hlt : exactSize localArea area < 2^31 := by
    rw [← Nat.not_le, ← of?_eq_none_iff, h]
    exact Option.some_ne_none frame
  unfold of? at h
  rw [if_pos (show exactSize localArea area < 0x80000000 from hlt)] at h
  cases area with
  | noCalls =>
    cases h
    exact ⟨UInt32.toNat_ofNat_of_lt' (Nat.lt_trans hlt (by decide)), rfl, rfl⟩
  | bytes outgoing =>
    cases h
    have hsize : localArea.toNat + outgoing.toNat + 8 < 2^31 := hlt
    refine ⟨UInt32.toNat_ofNat_of_lt' (Nat.lt_trans hlt (by decide)), UInt32.toNat_ofNat_of_lt' ?_, ?_⟩
    · show outgoing.toNat + 4 < 2^32
      omega
    · refine congrArg some (Int32.toInt_ofInt_of_le ?_ ?_)
      · omega
      · omega

section
variable {types : TypeTable} {scopes : ScopeTree} {sigs : List Signature}

theorem Scoped.sizeOutgoing_ok (h : Scoped scopes sigs (Signature.placed types) (Signature.areasEntry types))
    {sig : Signature} (hs : sig ∈ sigs) {u : Unit} {found : List Placement}
    (hg : (sig.procedure.sizeOutgoing scopes).Gives u found) :
    found = [.outgoing sig.procedure.name (sig.outgoing scopes)] ∧
      (sig.frame? types (Signature.outgoing scopes)).isSome ∧
      CallsCovered scopes sig.scope (sig.outgoing scopes) (allCallees sig.procedure.body) ∧
      SizedBy scopes sig.scope .noCalls (sig.outgoing scopes) (allCallees sig.procedure.body) := by
  have hp := h.procedure?_of_mem hs
  unfold Procedure.sizeOutgoing Procedure.localScope at hg
  rw [Trail.gives_expect_bind] at hg
  obtain ⟨scope, hscope, hg⟩ := hg
  rw [hp] at hscope
  cases hscope
  obtain ⟨area, first, rest, ha, hrest, rfl⟩ := Trail.gives_bind.mp hg
  rw [Trail.gives_report_bind, Trail.gives_require_bind, Trail.gives_leave, hp] at hrest
  obtain ⟨hframe, rfl⟩ := hrest
  obtain ⟨rfl, _, hc, hsized⟩ := outgoingAll_ok _ ha
  have he : sig.outgoing scopes = area := by
    rw [Signature.outgoing, ha.1]
  rw [← he] at hframe hc hsized ⊢
  exact ⟨rfl, hframe, hc, hsized⟩

/-- The area found for calls that are all sized covers them and is no larger than one of them. -/
theorem Signature.outgoing_sized {sig : Signature} (hc : CallsSized scopes sig.scope (allCallees sig.procedure.body)) :
    CallsCovered scopes sig.scope (sig.outgoing scopes) (allCallees sig.procedure.body) ∧
      SizedBy scopes sig.scope .noCalls (sig.outgoing scopes) (allCallees sig.procedure.body) := by
  obtain ⟨area, hr, hsized⟩ := outgoingAll_sized hc
  unfold Signature.outgoing
  rw [hr]
  exact hsized

/-- A procedure whose calls are sized is refused only if it has no frame. -/
theorem Scoped.sizeOutgoing_refuses (h : Scoped scopes sigs (Signature.placed types) (Signature.areasEntry types))
    {sig : Signature} (hs : sig ∈ sigs) (hc : CallsSized scopes sig.scope (allCallees sig.procedure.body)) :
    Trail.FailsOnly (fun cause => cause = .frameTooLarge sig.procedure.name ∧
        sig.frame? types (Signature.outgoing scopes) = none)
      (sig.procedure.sizeOutgoing scopes) := by
  have hp := h.procedure?_of_mem hs
  unfold Procedure.sizeOutgoing Procedure.localScope
  rw [hp]
  refine Trail.FailsOnly.bind (.pure sig.scope) fun scope hscope => ?_
  cases hscope
  refine (outgoingAll_failsOnly _ hc _).bind fun area ha => Trail.FailsOnly.bind (.report _) fun _ _ => ?_
  have he : sig.outgoing scopes = area := by
    rw [Signature.outgoing, ha]
  refine Trail.FailsOnly.bind (.require fun hnone => ⟨rfl, ?_⟩) fun _ _ => .leave _
  rw [Signature.frame?, he]
  exact Option.not_isSome_iff_eq_none.mp hnone

private theorem Signature.map_target_outgoing (scopes : ScopeTree) (sigs : List Signature) :
    (sigs.map fun sig => Placement.outgoing sig.procedure.name (sig.outgoing scopes)).map (·.target) =
      (sigs.map (·.procedure.name)).map fun name => (0, name) := by
  rw [List.map_map, List.map_map]
  rfl

/-- What is stored once some of the procedures have got their areas. -/
theorem Scoped.partlySized (h : Scoped scopes sigs (Signature.placed types) (Signature.areasEntry types))
    {done : List Signature} (hdone : done.Sublist sigs) {sig : Signature} (hs : sig ∈ sigs) {sized : ScopeTree}
    (hsized : sized = (done.map fun sig => Placement.outgoing sig.procedure.name (sig.outgoing scopes)).foldl
      Placement.put scopes) :
    (sig ∈ done → sized.procedure? sig.procedure.name = some (sig.framedEntry types (Signature.outgoing scopes))) ∧
      (sig ∉ done → sized.procedure? sig.procedure.name = some (sig.areasEntry types)) ∧
      ∀ name, sized.held? sig.scope name = (sig.placed types).at? name := by
  have hheld : scopes.held? 0 sig.procedure.name = some (.proc (sig.areasEntry types)) :=
    h.procedure.mpr (.inr ⟨sig, hs, rfl, rfl⟩)
  subst hsized
  refine ⟨fun hm => ?_, fun hm => ?_, fun name => ?_⟩
  · have hnodup := (h.names.sublist (hdone.map _)).map fun (a b : Name) (hab : ((0 : Nat), a) = (0, b)) =>
      (Prod.mk.inj hab).2
    rw [ScopeTree.procedure?, show ScopeTree.globalScope = 0 from rfl,
      Placement.held?_putAll_of_mem (Signature.map_target_outgoing scopes done ▸ hnodup) (List.mem_map_of_mem hm) rfl,
      hheld]
    rfl
  · rw [ScopeTree.procedure?, show ScopeTree.globalScope = 0 from rfl, Placement.held?_putAll_of_not_mem, hheld]
    · rfl
    · rw [Signature.map_target_outgoing, List.map_map]
      intro hin
      obtain ⟨other, ho, he⟩ := List.mem_map.mp hin
      exact hm (h.eq_of_name hs (hdone.subset ho) (Prod.mk.inj he).2.symm ▸ ho)
  · rw [Placement.held?_putAll_of_not_mem, h.held sig hs]
    rw [Signature.map_target_outgoing, List.map_map]
    intro hin
    obtain ⟨_, _, he⟩ := List.mem_map.mp hin
    exact Nat.ne_of_lt (h.inside sig hs).1 (Prod.mk.inj he).1

theorem Scoped.outgoing (h : Scoped scopes sigs (Signature.placed types) (Signature.areasEntry types)) :
    Scoped ((sigs.map fun sig => Placement.outgoing sig.procedure.name (sig.outgoing scopes)).foldl
        Placement.put scopes) sigs (Signature.placed types)
      (Signature.framedEntry types (Signature.outgoing scopes)) := by
  have ht := Signature.map_target_outgoing scopes sigs
  refine h.put ?_ ?_ (fun _ _ => rfl) ?_ fun sig hs => (h.partlySized (.refl sigs) hs rfl).2.2
  · rw [ht]
    exact h.names.map fun a b hab => (Prod.mk.inj hab).2
  · intro sig hs
    exact ⟨_, List.mem_map.mpr ⟨sig, hs, rfl⟩, rfl, rfl⟩
  · intro name hm
    rw [ht, List.map_map] at hm
    obtain ⟨sig, hs, he⟩ := List.mem_map.mp hm
    exact ⟨sig, hs, (Prod.mk.inj he).2.symm⟩

end
end SplLang
