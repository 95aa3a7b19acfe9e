/-! Finite maps kept as pairs in the order in which the keys were first put.
A key's value is overwritten where it stands. -/
namespace SplLang

/-- Pairs of a key and its value; the first pair of a key counts. -/
abbrev Keyed (κ ν : Type) := List (κ × ν)

namespace Keyed
variable {κ ν : Type} [DecidableEq κ]

/-- The value held for a key. -/
def at? : Keyed κ ν → κ → Option ν
  | [], _ => none
  | (k, v) :: rest, key => if k = key then some v else at? rest key

/-- Overwrite the value of a key that is held, or add the key behind the others. -/
def put : Keyed κ ν → κ → ν → Keyed κ ν
  | [], key, value => [(key, value)]
  | (k, v) :: rest, key, value =>
    if k = key then (k, value) :: rest else (k, v) :: put rest key value

/-- Change the value of a key that is held; nothing happens for another key. -/
def adjust (f : ν → ν) : Keyed κ ν → κ → Keyed κ ν
  | [], _ => []
  | (k, v) :: rest, key => if k = key then (k, f v) :: rest else (k, v) :: adjust f rest key

/-- Put pairs one after the other. -/
def putAll (m : Keyed κ ν) (pairs : List (κ × ν)) : Keyed κ ν :=
  pairs.foldl (fun m pair => m.put pair.1 pair.2) m

theorem at?_put (m : Keyed κ ν) (key other : κ) (value : ν) :
    (m.put key value).at? other = if key = other then some value else m.at? other := by
  induction m with
  | nil => rfl
  | cons pair rest ih =>
    obtain ⟨k, v⟩ := pair
    unfold put
    split
    · next h => subst h; simp only [at?]; split <;> rfl
    · next h =>
      simp only [at?, ih]
      by_cases hk : k = other
      · subst hk; simp [Ne.symm h]
      · simp [hk]

theorem at?_adjust (f : ν → ν) (m : Keyed κ ν) (key other : κ) :
    (m.adjust f key).at? other =
      if key = other then (m.at? other).map f else m.at? other := by
  induction m with
  | nil => simp [adjust, at?]
  | cons pair rest ih =>
    obtain ⟨k, v⟩ := pair
    unfold adjust
    split
    · next h => subst h; simp only [at?]; split <;> rfl
    · next h =>
      simp only [at?, ih]
      by_cases hk : k = other
      · subst hk; simp [Ne.symm h]
      · simp [hk]

/-- Insert a pair into pairs that ascend by name. -/
def insertSorted (pair : String × ν) : List (String × ν) → List (String × ν)
  | [] => [pair]
  | head :: rest =>
    if pair.1 < head.1 then pair :: head :: rest else head :: insertSorted pair rest

/-- The pairs in ascending order of their names. -/
def sorted (m : Keyed String ν) : List (String × ν) :=
  m.foldr insertSorted []

end Keyed
end SplLang
