import Mathlib.Data.List.Forall2
import SplLang.ScopeTree

/-! Entries in the order of their names. Names are compared by code point, which is the order of
their UTF-8 bytes: the encoding of a greater character never stands before that of a smaller one. -/
namespace SplLang

namespace Name

/-- The UTF-8 bytes of a name. -/
def bytes (name : Name) : List UInt8 := name.toUTF8.data.toList

private theorem bytes_eq (name : Name) : name.bytes = name.toList.flatMap String.utf8EncodeChar := by
  rw [bytes, String.toUTF8, ← String.utf8Encode_toList, List.utf8Encode, List.data_toByteArray]

private theorem byte_lt_iff (m n : Nat) : UInt8.ofNat m < UInt8.ofNat n ↔ m % 256 < n % 256 := by
  rw [UInt8.lt_iff_toNat_lt, UInt8.toNat_ofNat', UInt8.toNat_ofNat']

private theorem byte_eq_iff (m n : Nat) : UInt8.ofNat m = UInt8.ofNat n ↔ m % 256 = n % 256 := by
  rw [← UInt8.toNat_inj, UInt8.toNat_ofNat', UInt8.toNat_ofNat']

private theorem leading_byte {n : Nat} (h : n < 8) : (n % 8 + 240) % 256 = n + 240 := by
  omega

private theorem continuation_byte (n : Nat) : (n % 64 + 128) % 256 = n % 64 + 128 := by
  omega

/-- Whatever follows, the bytes of the smaller character come first. -/
private theorem encoded_lt {c d : Char} (h : c.val.toNat < d.val.toNat) (rest rest' : List UInt8) :
    String.utf8EncodeChar c ++ rest < String.utf8EncodeChar d ++ rest' := by
  have hd : d.val.toNat / 262144 < 8 := by
    rcases d.valid with hv | hv <;> omega
  have h6 := Nat.eq_or_lt_of_le (Nat.div_le_div_right (c := 64) (Nat.le_of_lt h))
  have h12 := Nat.eq_or_lt_of_le (Nat.div_le_div_right (c := 4096) (Nat.le_of_lt h))
  have h18 := Nat.eq_or_lt_of_le (Nat.div_le_div_right (c := 262144) (Nat.le_of_lt h))
  have hc : c.val.toNat / 262144 < 8 := by omega
  simp only [String.utf8EncodeChar]
  -- A longer code has a greater first byte; two codes of one length are compared byte by byte.
  repeat' split
  all_goals simp only [List.cons_append, List.cons_lt_cons_iff, byte_lt_iff, byte_eq_iff, continuation_byte,
    leading_byte hc, leading_byte hd]
  all_goals omega

private theorem encoded_ne_nil (c : Char) : String.utf8EncodeChar c ≠ [] := by
  simp only [String.utf8EncodeChar]
  split
  · exact List.cons_ne_nil _ _
  · split
    · exact List.cons_ne_nil _ _
    · split <;> exact List.cons_ne_nil _ _

private theorem flatMap_lt {cs ds : List Char} (h : cs < ds) :
    cs.flatMap String.utf8EncodeChar < ds.flatMap String.utf8EncodeChar := by
  induction cs generalizing ds with
  | nil =>
    cases ds with
    | nil => exact absurd h (List.lt_irrefl [])
    | cons d ds =>
      obtain ⟨b, bs, hb⟩ := List.exists_cons_of_ne_nil (encoded_ne_nil d)
      rw [List.flatMap_cons, hb]
      exact List.nil_lt_cons _ _
  | cons c cs ih =>
    cases ds with
    | nil => exact absurd h (List.not_lt_nil _)
    | cons d ds =>
      rw [List.flatMap_cons, List.flatMap_cons]
      rcases List.cons_lt_cons_iff.mp h with hc | ⟨rfl, hs⟩
      · exact encoded_lt hc _ _
      · exact List.append_left_lt (ih hs)

theorem bytes_lt {name name' : Name} (h : name < name') : name.bytes < name'.bytes := by
  rw [bytes_eq, bytes_eq]
  exact flatMap_lt (String.lt_iff.mp h)

end Name

namespace Keyed
variable {ν : Type}

theorem insertSorted_perm (pair : String × ν) (pairs : List (String × ν)) :
    (insertSorted pair pairs).Perm (pair :: pairs) := by
  induction pairs with
  | nil => exact .refl _
  | cons head rest ih =>
    rw [insertSorted]
    split
    · exact .refl _
    · exact (ih.cons head).trans (.swap pair head rest)

/-- Sorting keeps every pair. -/
theorem sorted_perm (m : Keyed String ν) : m.sorted.Perm m := by
  induction m with
  | nil => exact .refl _
  | cons pair rest ih => exact (insertSorted_perm pair (sorted rest)).trans (ih.cons pair)

theorem insertSorted_ascends {pair : String × ν} {pairs : List (String × ν)}
    (h : pairs.Pairwise fun p q => p.1 < q.1) (new : pair.1 ∉ pairs.map (·.1)) :
    (insertSorted pair pairs).Pairwise fun p q => p.1 < q.1 := by
  induction pairs with
  | nil => exact List.pairwise_singleton _ _
  | cons head rest ih =>
    obtain ⟨hh, hr⟩ := List.pairwise_cons.mp h
    rw [List.map_cons, List.mem_cons, not_or] at new
    rw [insertSorted]
    split
    · next hlt =>
      refine List.pairwise_cons.mpr ⟨?_, h⟩
      intro q hq
      rcases List.mem_cons.mp hq with rfl | hq
      · exact hlt
      · exact String.lt_trans hlt (hh q hq)
    · next hge =>
      refine List.pairwise_cons.mpr ⟨?_, ih hr new.2⟩
      intro q hq
      rcases List.mem_cons.mp ((insertSorted_perm pair rest).mem_iff.mp hq) with rfl | hq
      · refine String.not_le.mp fun hle => new.1 ?_
        exact String.le_antisymm hle (String.not_lt.mp hge)
      · exact hh q hq

/-- Distinct names ascend strictly once they are sorted. -/
theorem sorted_ascends {m : Keyed String ν} (h : (m.map (·.1)).Nodup) :
    m.sorted.Pairwise fun p q => p.1 < q.1 := by
  induction m with
  | nil => exact .nil
  | cons pair rest ih =>
    obtain ⟨hn, hr⟩ := List.nodup_cons.mp h
    refine insertSorted_ascends (ih hr) fun hm => hn ?_
    exact ((sorted_perm rest).map _).mem_iff.mp hm

end Keyed
end SplLang
