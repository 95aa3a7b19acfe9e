import SplLang.Proofs.Labels
import SplLang.Proofs.Source

/-! Pieces of code inside a loaded program. A piece is located by the number of instructions before
it; from there the machine fetches its instructions and finds the addresses of its labels. -/
namespace SplLang.Machine

theorem Assembly.instructions_append (first rest : Assembly) :
    instructions (first ++ rest) = instructions first ++ instructions rest := List.filterMap_append

namespace Assembly

/-- How many instructions the code has. -/
def size (assembly : Assembly) : Nat := assembly.instructions.length

@[simp]
theorem size_nil : size [] = 0 := rfl

@[simp]
theorem size_append (first rest : Assembly) : size (first ++ rest) = size first + size rest := by
  rw [size, instructions_append, List.length_append]
  rfl

@[simp]
theorem size_instr (mnemonic : Mnemonic) (operands : List Operand) (rest : Assembly) :
    size (instr mnemonic operands :: rest) = size rest + 1 := rfl

@[simp]
theorem size_label (l : Label) (rest : Assembly) : size (.label l :: rest) = size rest := rfl

@[simp]
theorem size_directive (words : String) (rest : Assembly) :
    size (.directive words :: rest) = size rest := rfl

@[simp]
theorem size_blank (rest : Assembly) : size (.blank :: rest) = size rest := rfl

private theorem position?_append_of_not_mem {first rest : Assembly} {l : Label} (h : l ∉ labels first) :
    position? (first ++ rest) l = (position? rest l).map (size first + ·) := by
  induction first with
  | nil => simp
  | cons line first ih =>
    cases line with
    | label other =>
      rw [labels_label, List.mem_cons, not_or] at h
      rw [List.cons_append, position?, if_neg (Ne.symm h.1), ih h.2]
      rfl
    | instruction i =>
      rw [labels_instruction] at h
      rw [List.cons_append, position?, ih h, Option.map_map]
      congr 1
      funext n
      show size first + n + 1 = size first + 1 + n
      omega
    | directive words =>
      rw [labels_directive] at h
      rw [List.cons_append, position?, ih h]
      rfl
    | blank =>
      rw [labels_blank] at h
      rw [List.cons_append, position?, ih h]
      rfl

private theorem position?_eq_none {assembly : Assembly} {l : Label} (h : l ∉ labels assembly) :
    position? assembly l = none := by
  have hnone : position? (assembly ++ []) l = none := by
    rw [position?_append_of_not_mem h]
    rfl
  rwa [List.append_nil] at hnone

end Assembly

namespace Target
open Assembly
variable {World : Type} {target : Target World} {code first rest : Assembly} {n : Nat}

/-- The code stands in the program behind the given number of instructions. -/
def CodeAt (target : Target World) (n : Nat) (code : Assembly) : Prop :=
  ∃ before after, target.assembly = before ++ code ++ after ∧ size before = n

theorem CodeAt.left (h : target.CodeAt n (first ++ rest)) : target.CodeAt n first := by
  obtain ⟨before, after, he, hn⟩ := h
  exact ⟨before, rest ++ after, by rw [he]; simp, hn⟩

theorem CodeAt.right (h : target.CodeAt n (first ++ rest)) : target.CodeAt (n + size first) rest := by
  obtain ⟨before, after, he, hn⟩ := h
  exact ⟨before ++ first, after, by rw [he]; simp, by rw [size_append, hn]⟩

theorem CodeAt.tail {line : Line} (h : target.CodeAt n (line :: rest)) :
    target.CodeAt (n + size [line]) rest := by
  have hcons : target.CodeAt n ([line] ++ rest) := h
  exact hcons.right

/-- The program is loaded so that the addresses of its instructions differ, and defines no label
twice. -/
structure Loaded (target : Target World) : Prop where
  fits : 4 * size target.assembly ≤ 2^32
  nodup : (labels target.assembly).Nodup

theorem codeAddress_succ (n : Nat) : target.codeAddress n + 4 = target.codeAddress (n + 1) := by
  unfold codeAddress
  rw [BitVec.add_assoc, show (4 : Word) = BitVec.ofNat 32 4 from rfl, ← BitVec.ofNat_add]
  rfl

/-- What the machine fetches is the instruction that stands there. -/
theorem CodeAt.fetch {i : Instruction} (hl : target.Loaded)
    (h : target.CodeAt n (.instruction i :: rest)) : target.fetch? (target.codeAddress n) = some i := by
  obtain ⟨before, after, he, hn⟩ := h
  have hsize : n < size target.assembly := by
    rw [he, size_append, size_append, hn]
    show n < n + (size rest + 1) + size after
    omega
  have hfits := hl.fits
  have hoffset : (target.codeAddress n - target.origin).toNat = 4 * n := by
    unfold codeAddress
    rw [BitVec.add_comm, BitVec.add_sub_cancel, BitVec.toNat_ofNat]
    omega
  have haligned : Aligned (target.codeAddress n - target.origin) := by
    rw [Aligned, hoffset]
    omega
  have hget : target.assembly.instructions[n]? = some i := by
    rw [he, instructions_append, instructions_append, List.append_assoc,
      List.getElem?_append_right (by rw [← hn]; exact Nat.le_refl _), ← hn]
    show (i :: (instructions rest ++ instructions after))[size before - size before]? = some i
    rw [Nat.sub_self]
    rfl
  rw [fetch?, if_pos haligned, hoffset, Nat.mul_div_cancel_left n (by omega), hget]

/-- A label means the address of the instruction behind it. -/
theorem CodeAt.address {l : Label} (hl : target.Loaded) (h : target.CodeAt n (.label l :: rest)) :
    target.address l = target.codeAddress n := by
  obtain ⟨before, after, he, hn⟩ := h
  have hnodup := hl.nodup
  rw [he, List.append_assoc, labels_append, List.cons_append, labels_label] at hnodup
  have hbefore : l ∉ labels before := by
    intro hm
    exact (List.nodup_append.mp hnodup).2.2 l hm l List.mem_cons_self rfl
  have hposition : target.assembly.position? l = some n := by
    rw [he, List.append_assoc, position?_append_of_not_mem hbefore, List.cons_append, position?,
      if_pos rfl, Option.map_some, hn]
    rfl
  unfold Target.address
  rw [hposition]

theorem address_of_not_mem {name : Name} (h : .named name ∉ labels target.assembly) :
    target.address (.named name) = target.outside name := by
  unfold Target.address
  rw [position?_eq_none h]

end Target
end SplLang.Machine
