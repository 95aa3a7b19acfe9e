import SplLang.Context
import SplLang.Proofs.Keyed

/-! How scopes change and what is seen from them. A scope that lies in the global one sees
its own entries first and the global ones behind them. -/
namespace SplLang

namespace Numbered
variable {α : Type}

theorem at?_cons_of_ne {x : α} {xs : List α} {i : Nat} (h : i ≠ xs.length) :
    at? (x :: xs) i = at? xs i := by
  simp [at?, h]

theorem at?_cons_self (x : α) (xs : List α) : at? (x :: xs) xs.length = some x := by
  simp [at?]

theorem lt_of_at? {xs : List α} {i : Nat} {x : α} (h : at? xs i = some x) : i < xs.length :=
  (at?_isSome_iff xs i).mp (by rw [h]; rfl)

/-- A member keeps its number when the list grows. -/
theorem at?_append (newer : List α) {xs : List α} {i : Nat} {x : α} (h : at? xs i = some x) :
    at? (newer ++ xs) i = some x := by
  induction newer with
  | nil => exact h
  | cons y newer ih =>
    have hi := lt_of_at? h
    rw [List.cons_append, at?_cons_of_ne (by rw [List.length_append]; omega), ih]

end Numbered

namespace ScopeTree
variable {tree : ScopeTree}

theorem lt_count_of_scope? {scope : ScopeId} {held : Scope} (h : tree.scope? scope = some held) :
    scope < tree.count :=
  Numbered.lt_of_at? h

/-- Opening a scope leaves the others as they are. -/
theorem scope?_nest (parent scope : ScopeId) :
    (tree.nest parent).2.scope? scope =
      if scope = tree.count then some ⟨some parent, []⟩ else tree.scope? scope := rfl

theorem parent?_nest (parent scope : ScopeId) :
    (tree.nest parent).2.parent? scope = if scope = tree.count then some parent else tree.parent? scope := by
  rw [parent?, scope?_nest]
  split <;> rfl

theorem scope?_adjustEntries (scope other : ScopeId) (f : Keyed Name Entry → Keyed Name Entry) :
    (tree.adjustEntries scope f).scope? other =
      if scope = other then (tree.scope? other).map fun s => { s with entries := f s.entries }
      else tree.scope? other :=
  Numbered.at?_adjust _ _ _ _

theorem count_adjustEntries (tree : ScopeTree) (scope : ScopeId) (f : Keyed Name Entry → Keyed Name Entry) :
    (tree.adjustEntries scope f).count = tree.count :=
  Numbered.length_adjust _ _ _

theorem parent?_adjustEntries (scope other : ScopeId) (f : Keyed Name Entry → Keyed Name Entry) :
    (tree.adjustEntries scope f).parent? other = tree.parent? other := by
  unfold parent?
  rw [scope?_adjustEntries]
  split
  · cases tree.scope? other <;> rfl
  · rfl

theorem held?_of_scope? {scope : ScopeId} {held : Scope} (h : tree.scope? scope = some held)
    (name : Name) : tree.held? scope name = held.entries.at? name := by
  simp [held?, h]

theorem held?_nest (parent scope : ScopeId) (name : Name) :
    (tree.nest parent).2.held? scope name = tree.held? scope name := by
  rw [held?, scope?_nest]
  split
  · next hs =>
    cases hh : tree.scope? scope with
    | none => simp [held?, hh]
    | some held => exact absurd (hs ▸ lt_count_of_scope? hh) (Nat.lt_irrefl _)
  · rfl

theorem held?_put {scope : ScopeId} (hs : scope < tree.count) (name : Name) (entry : Entry)
    (other : ScopeId) (key : Name) :
    (tree.adjustEntries scope (·.put name entry)).held? other key =
      if scope = other ∧ name = key then some entry else tree.held? other key := by
  rw [held?, held?, scope?_adjustEntries]
  by_cases ho : scope = other
  · obtain ⟨held, hh⟩ := Option.isSome_iff_exists.mp ((Numbered.at?_isSome_iff _ _).mpr (ho ▸ hs))
    have hh : tree.scope? other = some held := hh
    simp only [ho, if_true, hh, Option.map_some, Option.bind_some, Keyed.at?_put, true_and]
  · simp [ho]

/-- Changing the entry of one name in one scope changes no other entry. -/
theorem held?_adjust (scope other : ScopeId) (name key : Name) (f : Entry → Entry) :
    (tree.adjust scope name f).held? other key =
      if scope = other ∧ name = key then (tree.held? other key).map f
      else tree.held? other key := by
  unfold held? adjust
  rw [scope?_adjustEntries]
  cases ht : tree.scope? other with
  | none => split <;> simp
  | some s =>
    by_cases hs : scope = other
    · simp only [hs, if_true, Option.map_some, Option.bind_some, Keyed.at?_adjust, true_and]
    · simp [hs]

theorem enter?_eq_some {scope : ScopeId} {name : Name} {entry : Entry} {next : ScopeTree}
    (h : tree.enter? scope name entry = some next) :
    tree.held? scope name = none ∧ next = tree.adjustEntries scope (·.put name entry) := by
  unfold enter? at h
  split at h
  · cases h
  · next hn => exact ⟨hn, (Option.some.inj h).symm⟩

/-- What a declaration adds to its scope stands behind the entries that were there. -/
theorem scope?_of_enter? {scope : ScopeId} {name : Name} {entry : Entry} {next : ScopeTree}
    {held : Scope} (h : tree.enter? scope name entry = some next)
    (hs : tree.scope? scope = some held) :
    held.entries.at? name = none ∧
      next.scope? scope = some { held with entries := held.entries ++ [(name, entry)] } := by
  obtain ⟨hn, rfl⟩ := enter?_eq_some h
  rw [held?_of_scope? hs] at hn
  refine ⟨hn, ?_⟩
  rw [scope?_adjustEntries, if_pos rfl, hs, Option.map_some, Keyed.put_of_at?_eq_none hn]

theorem scope?_of_enter?_of_ne {scope other : ScopeId} {name : Name} {entry : Entry}
    {next : ScopeTree} (h : tree.enter? scope name entry = some next) (hne : other ≠ scope) :
    next.scope? other = tree.scope? other := by
  obtain ⟨_, rfl⟩ := enter?_eq_some h
  rw [scope?_adjustEntries, if_neg hne.symm]

theorem count_of_enter? {scope : ScopeId} {name : Name} {entry : Entry} {next : ScopeTree}
    (h : tree.enter? scope name entry = some next) : next.count = tree.count := by
  obtain ⟨_, rfl⟩ := enter?_eq_some h
  exact count_adjustEntries tree scope _

theorem parent?_of_enter? {scope : ScopeId} {name : Name} {entry : Entry} {next : ScopeTree}
    (h : tree.enter? scope name entry = some next) (other : ScopeId) : next.parent? other = tree.parent? other := by
  obtain ⟨_, rfl⟩ := enter?_eq_some h
  exact parent?_adjustEntries _ _ _

theorem held?_of_enter? {scope : ScopeId} {name : Name} {entry : Entry} {next : ScopeTree}
    (h : tree.enter? scope name entry = some next) (hs : scope < tree.count) (other : ScopeId) (key : Name) :
    next.held? other key = if scope = other ∧ name = key then some entry else tree.held? other key := by
  obtain ⟨_, rfl⟩ := enter?_eq_some h
  exact held?_put hs _ _ _ _

private theorem seenIn?_of_no_parent {scopes : List Scope} {scope : ScopeId} {held : Scope}
    (h : Numbered.at? scopes scope = some held) (hp : held.parent = none) (name : Name) :
    seenIn? scopes scope name = held.entries.at? name := by
  induction scopes with
  | nil => cases h
  | cons newest older ih =>
    unfold seenIn?
    by_cases hs : scope = older.length
    · rw [hs, Numbered.at?_cons_self] at h
      cases h
      rw [if_pos hs, hp]
      cases held.entries.at? name <;> rfl
    · rw [Numbered.at?_cons_of_ne hs] at h
      rw [if_neg hs, ih h]

private theorem seenIn?_of_parent {scopes : List Scope} {scope parent : ScopeId} {held outer : Scope}
    (h : Numbered.at? scopes scope = some held) (hp : held.parent = some parent)
    (ho : Numbered.at? scopes parent = some outer) (hn : outer.parent = none)
    (hlt : parent < scope) (name : Name) :
    seenIn? scopes scope name = (held.entries.at? name).or (outer.entries.at? name) := by
  induction scopes with
  | nil => cases h
  | cons newest older ih =>
    unfold seenIn?
    by_cases hs : scope = older.length
    · rw [Numbered.at?_cons_of_ne (hs ▸ Nat.ne_of_lt hlt)] at ho
      rw [hs, Numbered.at?_cons_self] at h
      cases h
      rw [if_pos hs, hp]
      cases held.entries.at? name with
      | some entry => rfl
      | none => exact (seenIn?_of_no_parent ho hn name).trans (Option.none_or).symm
    · rw [Numbered.at?_cons_of_ne hs] at h
      have hlt' := Nat.lt_trans hlt (Numbered.lt_of_at? h)
      rw [Numbered.at?_cons_of_ne (Nat.ne_of_lt hlt')] at ho
      rw [if_neg hs, ih h ho]

theorem parent?_of_scope? {scope : ScopeId} {held : Scope} (h : tree.scope? scope = some held) :
    tree.parent? scope = held.parent := by
  simp [parent?, h]

/-- From a scope that lies in no other its own entries are seen. -/
theorem seen?_of_no_parent {scope : ScopeId} (hc : scope < tree.count)
    (h : tree.parent? scope = none) (name : Name) : tree.seen? scope name = tree.held? scope name := by
  obtain ⟨held, hs⟩ := Option.isSome_iff_exists.mp ((Numbered.at?_isSome_iff _ _).mpr hc)
  rw [held?_of_scope? hs]
  rw [parent?_of_scope? hs] at h
  exact seenIn?_of_no_parent hs h name

/-- From a scope directly inside the global one its own entries are seen first. -/
theorem seen?_of_nested {scope : ScopeId} (hg : tree.parent? 0 = none)
    (h : tree.parent? scope = some 0) (hpos : 0 < scope) (name : Name) :
    tree.seen? scope name = (tree.held? scope name).or (tree.held? 0 name) := by
  cases hs : tree.scope? scope with
  | none => simp [parent?, hs] at h
  | some held =>
    have hc := Nat.lt_trans hpos (lt_count_of_scope? hs)
    obtain ⟨outer, ho⟩ := Option.isSome_iff_exists.mp ((Numbered.at?_isSome_iff _ _).mpr hc)
    rw [held?_of_scope? hs, held?_of_scope? ho]
    rw [parent?_of_scope? hs] at h
    rw [parent?_of_scope? ho] at hg
    exact seenIn?_of_parent hs h ho hg hpos name

private theorem held_of_seenIn? {scopes : List Scope} {scope : ScopeId} {name : Name} {entry : Entry}
    (h : seenIn? scopes scope name = some entry) :
    ∃ outer held, Numbered.at? scopes outer = some held ∧ held.entries.at? name = some entry := by
  induction scopes generalizing scope with
  | nil => cases h
  | cons newest older ih =>
    have keep : ∀ {inner : ScopeId}, seenIn? older inner name = some entry → ∃ outer held,
        Numbered.at? (newest :: older) outer = some held ∧ held.entries.at? name = some entry := by
      intro inner hi
      obtain ⟨outer, held, ho, he⟩ := ih hi
      exact ⟨outer, held, Numbered.at?_append [newest] ho, he⟩
    unfold seenIn? at h
    split at h
    · split at h
      · next found hf =>
        cases h
        exact ⟨older.length, newest, Numbered.at?_cons_self _ _, hf⟩
      · exact keep h
      · cases h
    · exact keep h

/-- What is seen is held by some scope. -/
theorem held_of_seen? {scope : ScopeId} {name : Name} {entry : Entry}
    (h : tree.seen? scope name = some entry) :
    ∃ outer held, tree.scope? outer = some held ∧ held.entries.at? name = some entry :=
  held_of_seenIn? h

end ScopeTree
end SplLang
