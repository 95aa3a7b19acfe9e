import SplLang.Proofs.Execution
import SplLang.Proofs.Ready

/-! Where the storage of a source run lies in the memory. Words of the stack are counted from its
lowest one; below a limit they hold no variable. -/
namespace SplLang
open Machine

namespace Machine
variable {a b : Word}

theorem Aligned.add (ha : Aligned a) (hb : Aligned b) : Aligned (a + b) := by
  unfold Aligned at *
  rw [BitVec.toNat_add]
  omega

theorem aligned_words (n : Nat) : Aligned (BitVec.ofNat 32 (4 * n)) := by
  rw [Aligned, BitVec.toNat_ofNat]
  omega

namespace Target
variable {World : Type} {target : Target World} {j k : Nat}

/-- The address of the word of the stack with the given number. -/
def slot (target : Target World) (k : Nat) : Word := target.stack + BitVec.ofNat 32 (4 * k)

theorem slot_add (k n : Nat) : target.slot k + BitVec.ofNat 32 (4 * n) = target.slot (k + n) := by
  rw [slot, slot, BitVec.add_assoc, ← BitVec.ofNat_add, ← Nat.mul_add]

theorem slot_sub (k n : Nat) : target.slot (k + n) - BitVec.ofNat 32 (4 * n) = target.slot k := by
  rw [← slot_add, BitVec.add_sub_cancel]

theorem slot_inj (hj : 4 * j < 2^32) (hk : 4 * k < 2^32) (h : target.slot j = target.slot k) : j = k := by
  have hwords : BitVec.ofNat 32 (4 * j) = BitVec.ofNat 32 (4 * k) := by
    rw [slot, slot, BitVec.add_comm, BitVec.add_comm target.stack] at h
    simpa using congrArg (· - target.stack) h
  have hnat := congrArg BitVec.toNat hwords
  rw [BitVec.toNat_ofNat, BitVec.toNat_ofNat, Nat.mod_eq_of_lt hj, Nat.mod_eq_of_lt hk] at hnat
  omega

theorem aligned_slot (h : Aligned target.stack) (k : Nat) : Aligned (target.slot k) := h.add (aligned_words k)

end Target
end Machine

/-- Where each word of storage is that a piece of code can see. -/
structure Places {World : Type} (target : Target World) where
  place? : Cell → Option Word
  /-- How many words from the bottom of the stack hold no variable. -/
  limit : Nat
  /-- The first activation whose variables have no place. -/
  next : Nat
  fits : 4 * limit ≤ 2^32
  injective : ∀ {cell other a}, place? cell = some a → place? other = some a → cell = other
  aligned : ∀ {cell a}, place? cell = some a → Aligned a
  apart : ∀ {cell a k}, place? cell = some a → k < limit → a ≠ target.slot k
  past : ∀ {cell a}, place? cell = some a → cell.activation < next

namespace Places
variable {World : Type} {target : Target World} {places : Places target} {cell : Cell} {base : Word}
  {count : Nat} {memory after : Word → Word} {store : Store} {a w : Word}

/-- Words of the stack under the limit have different addresses. -/
theorem slot_inj (places : Places target) {j k : Nat} (hj : j < places.limit) (hk : k < places.limit)
    (h : target.slot j = target.slot k) : j = k := by
  have hfits := places.fits
  exact Target.slot_inj (by omega) (by omega) h

/-- The given number of words from a cell on lie one behind the other from an address on. -/
def Region (places : Places target) (cell : Cell) (base : Word) (count : Nat) : Prop :=
  ∀ k < count, places.place? (cell.shift k) = some (base + BitVec.ofNat 32 (4 * k))

theorem Region.place (h : places.Region cell base count) (hc : 0 < count) : places.place? cell = some base := by
  have hfirst := h 0 hc
  rwa [Nat.mul_zero, BitVec.add_zero] at hfirst

/-- The element of an array is a part of the array. -/
theorem Region.element {words i length : Nat} (h : places.Region cell base (length * words))
    (hi : i < length) :
    places.Region (cell.shift (i * words)) (base + BitVec.ofNat 32 (4 * (i * words))) words := by
  intro k hk
  have hlt : i * words + k < length * words := by
    have hle : (i + 1) * words ≤ length * words := Nat.mul_le_mul_right words hi
    rw [Nat.add_mul, Nat.one_mul] at hle
    omega
  have hplace := h (i * words + k) hlt
  rw [Nat.mul_add, BitVec.ofNat_add, ← BitVec.add_assoc] at hplace
  rw [← hplace]
  unfold Cell.shift
  rw [Nat.add_assoc]

/-- The address belongs to no variable, and the code that runs leaves it alone. -/
structure Kept (places : Places target) (a : Word) : Prop where
  free : ∀ cell, places.place? cell ≠ some a
  above : ∀ k < places.limit, a ≠ target.slot k

/-- The memory holds a store at the places of its cells. -/
def Stores (places : Places target) (store : Store) (memory : Word → Word) : Prop :=
  ∀ cell a, places.place? cell = some a → memory a = store cell

/-- Storing in a cell is storing at its place. -/
theorem Stores.update (h : places.Stores store memory) (hc : places.place? cell = some a) :
    places.Stores (Function.update store cell w) (Function.update memory a w) := by
  intro other b hb
  by_cases he : other = cell
  · rw [he] at hb ⊢
    rw [hc] at hb
    cases hb
    rw [Function.update_self, Function.update_self]
  · have hne : b ≠ a := by
      rintro rfl
      exact he (places.injective hb hc)
    rw [Function.update_of_ne he, Function.update_of_ne hne, h other b hb]

/-- Words that belong to no variable do not matter. -/
theorem Stores.congr (h : places.Stores store memory)
    (hm : ∀ cell a, places.place? cell = some a → after a = memory a) : places.Stores store after := by
  intro cell a hc
  rw [hm cell a hc, h cell a hc]

/-- The states of source and machine belong together. From the bound on, no activation has written
its variables. -/
structure Holds (places : Places target) (garbage : Store) (bound : Nat) (src : Source.State World)
    (s : State World) : Prop where
  calls : s.calls = src.calls
  world : s.world = src.world
  recent : places.next ≤ bound
  fresh : ∀ cell, bound ≤ cell.activation → src.store cell = garbage cell
  stored : places.Stores src.store s.memory

/-- What the code of a body relies on to find the variables of an activation: a frame pointer from
which each lies at its offset, or else a word with its address. -/
def Binds (places : Places target) (body : Body) (cells : Keyed Name Cell) (fp : Word)
    (memory : Word → Word) : Prop :=
  ∀ name cell type, cells.at? name = some cell → body.around.varType? name = some type →
    ∃ offset byReference base, body.placed? name = some (offset, byReference) ∧
      places.Region cell base (body.context.types.words type) ∧
      if byReference then
        Aligned (fp + offset.toBitVec) ∧ places.Kept (fp + offset.toBitVec) ∧
          memory (fp + offset.toBitVec) = base
      else fp + offset.toBitVec = base

theorem Binds.congr {body : Body} {cells : Keyed Name Cell} {fp : Word}
    (h : places.Binds body cells fp memory) (hm : ∀ a, places.Kept a → after a = memory a) :
    places.Binds body cells fp after := by
  intro name cell type hc ht
  obtain ⟨offset, byReference, base, hp, hr, hb⟩ := h name cell type hc ht
  refine ⟨offset, byReference, base, hp, hr, ?_⟩
  cases byReference with
  | false => exact hb
  | true =>
    obtain ⟨ha, hk, hmem⟩ := hb
    exact ⟨ha, hk, (hm _ hk).trans hmem⟩

end Places
end SplLang
