/-! Exact values narrowed to machine words.
A product is formed without bound first and refused when it does not fit. -/
namespace SplLang.Word

/-- The unsigned word with the given value, if there is one. -/
def unsigned? (n : Nat) : Option UInt32 :=
  if n < UInt32.size then some (UInt32.ofNat n) else none

/-- The product, or the largest word if the product does not fit. -/
def saturatingMul (a b : UInt32) : UInt32 :=
  (unsigned? (a.toNat * b.toNat)).getD (UInt32.ofNat (UInt32.size - 1))

theorem toNat_of_unsigned? {n : Nat} {w : UInt32} (h : unsigned? n = some w) : w.toNat = n := by
  unfold unsigned? at h
  split at h
  · next hn =>
    obtain rfl := Option.some.inj h
    exact UInt32.toNat_ofNat_of_lt' hn
  · contradiction

theorem unsigned?_isSome_iff {n : Nat} : (unsigned? n).isSome ↔ n < UInt32.size := by
  unfold unsigned?
  split <;> simp_all

end SplLang.Word
