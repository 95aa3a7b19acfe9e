import Mathlib.Data.List.Forall2
import SplLang.Keyed

/-! Keyed maps as lists: a new key goes behind the others, and of several values put
for one key the last one counts. -/
namespace SplLang.Keyed
variable {κ ν : Type} [DecidableEq κ]

@[simp]
theorem at?_nil (key : κ) : at? ([] : Keyed κ ν) key = none := rfl

@[simp]
theorem at?_cons (k key : κ) (v : ν) (rest : Keyed κ ν) :
    at? ((k, v) :: rest) key = if k = key then some v else at? rest key := rfl

theorem at?_append (first rest : Keyed κ ν) (key : κ) :
    at? (first ++ rest) key = (at? first key).or (at? rest key) := by
  induction first with
  | nil => simp
  | cons pair first ih =>
    obtain ⟨k, v⟩ := pair
    rw [List.cons_append, at?_cons, at?_cons, ih]
    split <;> simp

theorem at?_map {μ : Type} (f : ν → μ) (m : Keyed κ ν) (key : κ) :
    at? (m.map fun pair => (pair.1, f pair.2)) key = (m.at? key).map f := by
  induction m with
  | nil => rfl
  | cons pair rest ih =>
    rw [List.map_cons, at?_cons, at?_cons, ih]
    split <;> rfl

theorem at?_eq_none_iff (m : Keyed κ ν) (key : κ) : m.at? key = none ↔ key ∉ m.map (·.1) := by
  induction m with
  | nil => simp
  | cons pair rest ih =>
    obtain ⟨k, v⟩ := pair
    by_cases h : k = key
    · simp [h]
    · simp [h, ih, Ne.symm h]

theorem mem_of_at? {m : Keyed κ ν} {key : κ} {value : ν} (h : m.at? key = some value) :
    (key, value) ∈ m := by
  induction m with
  | nil => cases h
  | cons pair rest ih =>
    obtain ⟨k, v⟩ := pair
    rw [at?_cons] at h
    split at h
    · next hk =>
      cases h
      rw [hk]
      exact List.mem_cons_self
    · exact List.mem_cons_of_mem _ (ih h)

theorem at?_of_mem {m : Keyed κ ν} {key : κ} {value : ν} (hn : (m.map (·.1)).Nodup)
    (h : (key, value) ∈ m) : m.at? key = some value := by
  induction m with
  | nil => cases h
  | cons pair rest ih =>
    obtain ⟨k, v⟩ := pair
    rw [List.map_cons, List.nodup_cons] at hn
    rcases List.mem_cons.mp h with h | h
    · cases h
      simp
    · have hk : k ≠ key := by
        rintro rfl
        exact hn.1 (List.mem_map.mpr ⟨_, h, rfl⟩)
      rw [at?_cons, if_neg hk]
      exact ih hn.2 h

/-- Where the same keys stand with related values, the values held for a key are related. -/
theorem at?_forall₂ {μ : Type} {R : ν → μ → Prop} {m : Keyed κ ν} {m' : Keyed κ μ}
    (h : List.Forall₂ (fun pair pair' => pair.1 = pair'.1 ∧ R pair.2 pair'.2) m m') (key : κ) :
    Option.Rel R (m.at? key) (m'.at? key) := by
  induction h with
  | nil => exact .none
  | @cons pair pair' _ _ hp _ ih =>
    obtain ⟨k, v⟩ := pair
    obtain ⟨k', v'⟩ := pair'
    obtain ⟨rfl, hv⟩ := hp
    rw [at?_cons, at?_cons]
    split
    · exact .some hv
    · exact ih

/-- A key that is not held yet goes behind the others. -/
theorem put_of_at?_eq_none {m : Keyed κ ν} {key : κ} {value : ν} (h : m.at? key = none) :
    m.put key value = m ++ [(key, value)] := by
  induction m with
  | nil => rfl
  | cons pair rest ih =>
    obtain ⟨k, v⟩ := pair
    rw [at?_cons] at h
    split at h
    · cases h
    · next hk => simp [put, hk, ih h]

/-- A member with a new key keeps the keys distinct. -/
theorem nodup_map_concat {α β : Type} {f : α → β} {xs : List α} {x : α} (hn : (xs.map f).Nodup)
    (hx : f x ∉ xs.map f) : ((xs ++ [x]).map f).Nodup := by
  rw [List.map_append, List.nodup_append]
  refine ⟨hn, by simp, ?_⟩
  rintro a ha b hb rfl
  cases List.mem_singleton.mp hb
  exact hx ha

/-- Of the pairs put for a key the last one counts. -/
theorem at?_putAll (m : Keyed κ ν) (pairs : List (κ × ν)) (key : κ) :
    (m.putAll pairs).at? key = (at? pairs.reverse key).or (m.at? key) := by
  induction pairs generalizing m with
  | nil => rfl
  | cons pair pairs ih =>
    obtain ⟨k, v⟩ := pair
    have hp : m.putAll ((k, v) :: pairs) = (m.put k v).putAll pairs := rfl
    rw [hp, ih, at?_put, List.reverse_cons, at?_append, at?_cons, at?_nil, Option.or_assoc]
    split <;> simp

/-- Every key stands somewhere for the last time. -/
theorem exists_last {pairs : List (κ × ν)} {key : κ} (h : key ∈ pairs.map (·.1)) :
    ∃ before value after, pairs = before ++ (key, value) :: after ∧ key ∉ after.map (·.1) := by
  induction pairs with
  | nil => cases h
  | cons pair pairs ih =>
    by_cases hm : key ∈ pairs.map (·.1)
    · obtain ⟨before, value, after, rfl, hn⟩ := ih hm
      exact ⟨pair :: before, value, after, rfl, hn⟩
    · rcases List.mem_cons.mp h with rfl | h
      · exact ⟨[], pair.2, pairs, rfl, hm⟩
      · exact absurd h hm

theorem at?_putAll_of_last {before after : List (κ × ν)} {key : κ} {value : ν} (m : Keyed κ ν)
    (h : key ∉ after.map (·.1)) :
    (m.putAll (before ++ (key, value) :: after)).at? key = some value := by
  have hnone : at? after.reverse key = none := by
    rw [at?_eq_none_iff, List.map_reverse, List.mem_reverse]
    exact h
  rw [at?_putAll, List.reverse_append, List.reverse_cons, at?_append, at?_append, hnone]
  simp

theorem at?_putAll_of_mem {pairs : List (κ × ν)} {key : κ} {value : ν} (m : Keyed κ ν)
    (hn : (pairs.map (·.1)).Nodup) (h : (key, value) ∈ pairs) :
    (m.putAll pairs).at? key = some value := by
  have hr : at? pairs.reverse key = some value := by
    apply at?_of_mem
    · rw [List.map_reverse]
      exact (List.reverse_perm _).nodup_iff.mpr hn
    · exact List.mem_reverse.mpr h
  rw [at?_putAll, hr, Option.some_or]

end SplLang.Keyed
