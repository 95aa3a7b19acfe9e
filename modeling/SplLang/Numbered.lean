/-! Lists that grow at the head and number their members from the end.
A member keeps its number when the list grows. -/
namespace SplLang.Numbered
variable {α : Type}

/-- The member with the given number. -/
def at? : List α → Nat → Option α
  | [], _ => none
  | newest :: older, i => if i = older.length then some newest else at? older i

/-- Change the member with the given number. -/
def adjust (f : α → α) : List α → Nat → List α
  | [], _ => []
  | newest :: older, i =>
    if i = older.length then f newest :: older else newest :: adjust f older i

@[simp]
theorem length_adjust (f : α → α) (xs : List α) (i : Nat) :
    (adjust f xs i).length = xs.length := by
  induction xs with
  | nil => rfl
  | cons x xs ih => unfold adjust; split <;> simp [ih]

theorem at?_isSome_iff (xs : List α) (i : Nat) : (at? xs i).isSome ↔ i < xs.length := by
  induction xs with
  | nil => simp [at?]
  | cons x xs ih =>
    unfold at?
    split
    · next h => simp [h]
    · next h => rw [ih, List.length_cons]; omega

theorem at?_adjust (f : α → α) (xs : List α) (i j : Nat) :
    at? (adjust f xs i) j = if i = j then (at? xs j).map f else at? xs j := by
  induction xs with
  | nil => simp [adjust, at?]
  | cons x xs ih =>
    unfold adjust
    by_cases h : i = xs.length
    · simp only [h, if_pos, at?]
      by_cases hj : j = xs.length
      · simp [hj]
      · simp [hj, Ne.symm hj]
    · simp only [h, if_false, at?, length_adjust, ih]
      by_cases hj : j = xs.length
      · subst hj; simp [h]
      · simp [hj]

end SplLang.Numbered
