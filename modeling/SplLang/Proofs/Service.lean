import SplLang.Proofs.Activations

/-! The library as a target carries it out. It finds its arguments above the stack pointer, and
below them the stack is its own; of the other memory it writes what is passed by reference. -/
namespace SplLang
open Machine

namespace Machine

/-- For each argument from an address upwards the word that it stands for. -/
def argumentWords (memory : Word → Word) : Word → List Bool → List Word
  | _, [] => []
  | slot, byReference :: rest =>
    (if byReference then memory (memory slot) else memory slot) :: argumentWords memory (slot + 4) rest

/-- For each argument from an address upwards the address that it passes, if it is a reference. -/
def references (memory : Word → Word) : Word → List Bool → List (Option Word)
  | _, [] => []
  | slot, byReference :: rest =>
    (if byReference then some (memory slot) else none) :: references memory (slot + 4) rest

/-- Write words to the addresses that are passed, one after the other. -/
def putWords : List (Option Word) → List Word → (Word → Word) → Word → Word
  | some a :: addresses, word :: words, memory => putWords addresses words (Function.update memory a word)
  | none :: addresses, _ :: words, memory => putWords addresses words memory
  | _, _, memory => memory

/-- A call of a library procedure as the machine arrives there: the arguments fit into the stack,
and no reference leads into them or below them. -/
structure Target.Arrival {World : Type} (target : Target World) (procedure : LibraryProcedure) (top : Nat)
    (s : State World) : Prop where
  pc : s.pc = target.outside procedure.name
  stackPointer : s.get .stackPointer = target.slot top
  fits : 4 * (top + procedure.byReference.length) ≤ 2^32
  references : ∀ a, some a ∈ references s.memory (target.slot top) procedure.byReference →
    Aligned a ∧ ∀ k < top + procedure.byReference.length, a ≠ target.slot k

/-- The target carries out the library with the given meaning. -/
structure Target.Serves {World : Type} (target : Target World) (meaning : LibraryMeaning World) : Prop where
  outside : ∀ procedure ∈ library, target.fetch? (target.outside procedure.name) = none
  serves : ∀ procedure ∈ library, ∀ top s words world, target.Arrival procedure top s →
    meaning procedure.name (argumentWords s.memory (target.slot top) procedure.byReference) s.world =
      some (words, world) →
    ∃ after, target.service s = some after ∧ after.pc = s.get .returnAddress ∧
      after.get .stackPointer = s.get .stackPointer ∧ after.get .framePointer = s.get .framePointer ∧
      after.world = world ∧
      ∀ a, (∀ k < top + procedure.byReference.length, a ≠ target.slot k) →
        after.memory a =
          putWords (references s.memory (target.slot top) procedure.byReference) words s.memory a

private theorem Target.slot_succ {World : Type} {target : Target World} (k : Nat) :
    target.slot k + 4 = target.slot (k + 1) := Target.slot_add k 1

end Machine

section
variable {World : Type} {target : Target World} {places : Places target} {types : TypeTable}
  {memory : Word → Word} {store : Store} {k : Nat} {byReference : List Bool} {arguments : List Argument}

/-- The parameters of a library procedure: each is an `int`. -/
def intKinds (byReference : List Bool) : List (TypeId × Bool) := byReference.map fun r => (TypeId.int, r)

section
variable (hb : types.Built) (hp : places.Passed types memory k (intKinds byReference) arguments)
include hb hp

theorem argumentWords_eq (hs : places.Stores store memory) :
    argumentWords memory (target.slot k) byReference = arguments.map (·.word store) := by
  induction byReference generalizing k arguments with
  | nil =>
    cases arguments with
    | nil => rfl
    | cons argument arguments => cases hp
  | cons r byReference ih =>
    cases arguments with
    | nil => cases hp
    | cons argument arguments =>
      obtain ⟨hfirst, hrest⟩ := hp
      rw [argumentWords, Target.slot_succ, ih hrest, List.map_cons]
      congr 1
      cases argument with
      | value word =>
        obtain ⟨hr, hw⟩ := hfirst
        rw [show r = false from hr]
        exact hw
      | reference cell =>
        obtain ⟨hr, hregion⟩ := hfirst
        rw [hb.words_int] at hregion
        rw [show r = true from hr]
        exact hs cell _ (hregion.place Nat.one_pos)

/-- References lead to places. -/
theorem references_placed {a : Word} (ha : some a ∈ references memory (target.slot k) byReference) :
    ∃ cell, places.place? cell = some a := by
  induction byReference generalizing k arguments with
  | nil => cases ha
  | cons r byReference ih =>
    cases arguments with
    | nil => cases hp
    | cons argument arguments =>
      obtain ⟨hfirst, hrest⟩ := hp
      rw [references, Target.slot_succ] at ha
      rcases List.mem_cons.mp ha with he | ha
      · cases argument with
        | value word =>
          obtain ⟨hr, -⟩ := hfirst
          rw [show r = false from hr] at he
          cases he
        | reference cell =>
          obtain ⟨hr, hregion⟩ := hfirst
          rw [show r = true from hr] at he
          cases he
          rw [hb.words_int] at hregion
          exact ⟨cell, hregion.place Nat.one_pos⟩
      · exact ih hrest ha

/-- What the library leaves at the addresses, the source has in the cells. -/
theorem putWords_stores {other : Word → Word} {words : List Word} (hs : places.Stores store other) :
    places.Stores (putResults arguments words store)
      (putWords (references memory (target.slot k) byReference) words other) := by
  induction byReference generalizing k arguments words store other with
  | nil =>
    cases arguments with
    | nil => exact hs
    | cons argument arguments => cases hp
  | cons r byReference ih =>
    cases arguments with
    | nil => cases hp
    | cons argument arguments =>
      obtain ⟨hfirst, hrest⟩ := hp
      rw [references, Target.slot_succ]
      cases argument with
      | value word =>
        obtain ⟨hr, -⟩ := hfirst
        rw [show r = false from hr]
        cases words with
        | nil => exact hs
        | cons word words => exact ih hrest hs
      | reference cell =>
        obtain ⟨hr, hregion⟩ := hfirst
        rw [hb.words_int] at hregion
        rw [show r = true from hr]
        cases words with
        | nil => exact hs
        | cons word words => exact ih hrest (hs.update (hregion.place Nat.one_pos))

/-- The library changes no cells but those that are passed. -/
theorem putResults_of_past {words : List Word} {cell : Cell} (hc : places.next ≤ cell.activation) :
    putResults arguments words store cell = store cell := by
  induction byReference generalizing k arguments words store with
  | nil =>
    cases arguments with
    | nil => rfl
    | cons argument arguments => cases hp
  | cons r byReference ih =>
    cases arguments with
    | nil => cases hp
    | cons argument arguments =>
      obtain ⟨hfirst, hrest⟩ := hp
      cases argument with
      | value word =>
        cases words with
        | nil => rfl
        | cons word words => exact ih hrest
      | reference other =>
        obtain ⟨-, hregion⟩ := hfirst
        rw [hb.words_int] at hregion
        have hpast := places.past (hregion.place Nat.one_pos)
        have hne : cell ≠ other := by
          rintro rfl
          omega
        cases words with
        | nil => rfl
        | cons word words => rw [putResults, ih hrest, Function.update_of_ne hne]

end

theorem putWords_of_not_mem {addresses : List (Option Word)} {words : List Word} {a : Word}
    (h : some a ∉ addresses) : putWords addresses words memory a = memory a := by
  induction addresses generalizing words memory with
  | nil => rfl
  | cons address addresses ih =>
    rw [List.mem_cons, not_or] at h
    cases words with
    | nil => cases address <;> rfl
    | cons word words =>
      cases address with
      | none => rw [putWords, ih h.2]
      | some other =>
        have hne : a ≠ other := fun he => h.1 (congrArg some he)
        rw [putWords, ih h.2, Function.update_of_ne hne]

end
end SplLang
