import Mathlib.Data.List.Induction
import SplLang.Proofs.Alphabetical
import SplLang.Proofs.Outward

/-! A tree of scopes after any history of its changes is the symbol table which that history tells.
Each change is described once; what the scopes hold follows by induction over the history. -/
namespace SplLang.ScopeTree

/-- One change of a tree of scopes. -/
inductive Change where
  | nest (parent : ScopeId)
  | enter (scope : ScopeId) (name : Name) (entry : Entry)
  | overwrite (scope : ScopeId) (name : Name) (entry : Entry)
  deriving DecidableEq

namespace Change

/-- The scope that a change starts from. -/
def scope : Change → ScopeId
  | .nest parent => parent
  | .enter scope _ _ => scope
  | .overwrite scope _ _ => scope

/-- The scope and the name whose entry a change sets. -/
def target? : Change → Option (ScopeId × Name)
  | .nest _ => none
  | .enter scope name _ => some (scope, name)
  | .overwrite scope name _ => some (scope, name)

/-- The tree after a change. A name that is taken is not entered, and one that is not held is
not overwritten. -/
def apply (tree : ScopeTree) : Change → ScopeTree
  | .nest parent => (tree.nest parent).2
  | .enter scope name entry => (tree.enter? scope name entry).getD tree
  | .overwrite scope name entry => tree.adjust scope name fun _ => entry

end Change

/-- The trees that come of an empty one; every change starts from a scope that there is. -/
inductive Reached : List Change → ScopeTree → Prop where
  | start : Reached [] empty
  | step {history : List Change} {tree : ScopeTree} (change : Change) :
      Reached history tree → change.scope < tree.count →
      Reached (history ++ [change]) (change.apply tree)

/-- The parents of the scopes that a history opens, the first scope first. -/
def opened (history : List Change) : List ScopeId :=
  history.filterMap fun
    | .nest parent => some parent
    | _ => none

/-- A scope holds the first entry entered there for a name, or what overwrote it last. -/
def Holds (history : List Change) (scope : ScopeId) (name : Name) (entry : Entry) : Prop :=
  ∃ before change after, history = before ++ change :: after ∧
    (change = .enter scope name entry ∧ (∀ earlier, .enter scope name earlier ∉ before) ∨
      change = .overwrite scope name entry ∧ ∃ earlier, .enter scope name earlier ∈ before) ∧
    ∀ later, .overwrite scope name later ∉ after

/-- A tree of scopes as its history tells it. -/
structure Faithful (history : List Change) (tree : ScopeTree) : Prop where
  count : tree.count = (opened history).length + 1
  outermost : tree.parent? globalScope = none
  parent : ∀ i : Nat, tree.parent? (i + 1) = (opened history)[i]?
  older : ∀ scope parent, tree.parent? scope = some parent → parent < scope
  chain : ∀ scope, scope < tree.count →
    (tree.outward scope).IsChain (fun inner outer => tree.parent? inner = some outer) ∧
      (tree.outward scope).head? = some scope ∧ (tree.outward scope).getLast? = some globalScope ∧
      (tree.outward scope).Pairwise (· > ·)
  held : ∀ scope name entry, tree.held? scope name = some entry ↔ Holds history scope name entry
  /-- A name means what the first scope outward that holds it holds. -/
  seen : ∀ scope name entry, tree.seen? scope name = some entry ↔
    ∃ nearer holder farther, tree.outward scope = nearer ++ holder :: farther ∧
      tree.held? holder name = some entry ∧ ∀ inner ∈ nearer, tree.held? inner name = none
  entered : ∀ scope name,
    (∃ held, tree.held? scope name = some held) ↔ ∃ first, .enter scope name first ∈ history
  /-- Exactly a name that the scope itself holds is refused, and then nothing changes. -/
  refused : ∀ scope name entry,
    (tree.enter? scope name entry = none ↔ ∃ held, tree.held? scope name = some held) ∧
      (tree.enter? scope name entry = none → (Change.enter scope name entry).apply tree = tree)
  /-- A change is seen only by its own name, from its own scope and inward of it up to nearer holders. -/
  confined : ∀ (change : Change) scope name, change.target? = some (scope, name) →
    change.scope < tree.count → ∀ inner other,
    (change.apply tree).seen? inner other ≠ tree.seen? inner other →
    other = name ∧ ∃ nearer farther, tree.outward inner = nearer ++ scope :: farther ∧
      ∀ s ∈ nearer, tree.held? s name = none
  entries : ∀ scope name entry, (name, entry) ∈ tree.entries scope ↔ tree.held? scope name = some entry
  ascending : ∀ scope, (tree.entries scope).Pairwise fun first next => first.1.bytes < next.1.bytes

section
variable {history : List Change} {change : Change} {scope : ScopeId} {name : Name} {entry : Entry}

/-- What a scope holds after one more change. -/
theorem holds_concat : Holds (history ++ [change]) scope name entry ↔
    (change = .enter scope name entry ∧ ∀ earlier, .enter scope name earlier ∉ history) ∨
    (change = .overwrite scope name entry ∧ ∃ earlier, .enter scope name earlier ∈ history) ∨
    Holds history scope name entry ∧ ∀ later, change ≠ .overwrite scope name later := by
  constructor
  · rintro ⟨before, decisive, after, heq, hd, ha⟩
    rcases List.eq_nil_or_concat after with rfl | ⟨between, last, rfl⟩
    · obtain ⟨rfl, hl⟩ := List.append_inj' heq rfl
      cases hl
      exact hd.imp id .inl
    · rw [List.concat_eq_append, ← List.cons_append, ← List.append_assoc] at heq
      obtain ⟨rfl, hl⟩ := List.append_inj' heq rfl
      cases hl
      simp only [List.concat_eq_append, List.mem_append, List.mem_singleton, not_or] at ha
      exact .inr (.inr ⟨⟨before, decisive, between, rfl, hd, fun later => (ha later).1⟩,
        fun later h => (ha later).2 h.symm⟩)
  · rintro (⟨rfl, hn⟩ | ⟨rfl, he⟩ | ⟨⟨before, decisive, after, rfl, hd, ha⟩, hne⟩)
    · exact ⟨history, _, [], rfl, .inl ⟨rfl, hn⟩, fun _ => List.not_mem_nil⟩
    · exact ⟨history, _, [], rfl, .inr ⟨rfl, he⟩, fun _ => List.not_mem_nil⟩
    · refine ⟨before, decisive, after ++ [change], by simp, hd, ?_⟩
      intro later hm
      rcases List.mem_append.mp hm with hm | hm
      · exact ha later hm
      · exact hne later (List.mem_singleton.mp hm).symm

theorem not_holds_nil : ¬ Holds [] scope name entry := by
  rintro ⟨before, decisive, after, heq, -⟩
  cases before <;> cases heq

/-- A scope holds something for the names entered there. -/
theorem exists_holds_iff :
    (∃ entry, Holds history scope name entry) ↔ ∃ first, .enter scope name first ∈ history := by
  induction history using List.reverseRecOn with
  | nil =>
    constructor
    · rintro ⟨entry, h⟩
      exact absurd h not_holds_nil
    · rintro ⟨first, h⟩
      cases h
  | append_singleton history change ih =>
    simp only [holds_concat, List.mem_append, List.mem_singleton]
    by_cases entered : ∃ first, .enter scope name first ∈ history
    · obtain ⟨entry, held⟩ := ih.mpr entered
      obtain ⟨first, hf⟩ := entered
      refine ⟨fun _ => ⟨first, .inl hf⟩, fun _ => ?_⟩
      by_cases hc : ∃ later, change = .overwrite scope name later
      · obtain ⟨later, hc⟩ := hc
        exact ⟨later, .inr (.inl ⟨hc, first, hf⟩)⟩
      · exact ⟨entry, .inr (.inr ⟨held, fun later h => hc ⟨later, h⟩⟩)⟩
    · have none_entered : ∀ first, .enter scope name first ∉ history := fun first h => entered ⟨first, h⟩
      constructor
      · rintro ⟨entry, ⟨hc, -⟩ | ⟨-, h⟩ | ⟨h, -⟩⟩
        · exact ⟨entry, .inr hc.symm⟩
        · exact absurd h entered
        · exact absurd (ih.mp ⟨entry, h⟩) entered
      · rintro ⟨first, h | h⟩
        · exact absurd h (none_entered first)
        · exact ⟨first, .inl ⟨h.symm, none_entered⟩⟩

end

section
variable {tree : ScopeTree} {change : Change}

private theorem empty_rooted : Rooted empty := rooted_single []

private theorem parents_adjustEntries (tree : ScopeTree) (scope : ScopeId)
    (f : Keyed Name Entry → Keyed Name Entry) :
    (tree.adjustEntries scope f).newestFirst.map (·.parent) = tree.newestFirst.map (·.parent) := by
  rw [adjustEntries]
  induction tree.newestFirst with
  | nil => rfl
  | cons newest older ih =>
    rw [Numbered.adjust]
    split
    · rfl
    · exact congrArg (newest.parent :: ·) ih

/-- A change opens a scope, or it changes the entries of one scope, or it does nothing. -/
theorem apply_cases (tree : ScopeTree) (change : Change) :
    (∃ parent, change = .nest parent ∧ change.apply tree = (tree.nest parent).2) ∨
    (∃ scope name entry, change = .enter scope name entry ∧ tree.held? scope name = none ∧
      change.apply tree = tree.adjustEntries scope (·.put name entry)) ∨
    (∃ scope name entry held, change = .enter scope name entry ∧ tree.held? scope name = some held ∧
      change.apply tree = tree) ∨
    (∃ scope name entry, change = .overwrite scope name entry ∧
      change.apply tree = tree.adjust scope name fun _ => entry) := by
  cases change with
  | nest parent => exact .inl ⟨parent, rfl, rfl⟩
  | enter scope name entry =>
    cases hh : tree.held? scope name with
    | none => exact .inr (.inl ⟨scope, name, entry, rfl, hh, by simp [Change.apply, enter?, hh]⟩)
    | some held => exact .inr (.inr (.inl ⟨scope, name, entry, held, rfl, hh, by simp [Change.apply, enter?, hh]⟩))
  | overwrite scope name entry => exact .inr (.inr (.inr ⟨scope, name, entry, rfl, rfl⟩))

/-- A change that starts from a scope sets no entry but that of its target. -/
theorem held?_apply_of_ne (hc : change.scope < tree.count) {scope : ScopeId} {name : Name}
    (h : change.target? ≠ some (scope, name)) :
    (change.apply tree).held? scope name = tree.held? scope name := by
  rcases apply_cases tree change with ⟨parent, rfl, he⟩ | ⟨s, n, entry, rfl, -, he⟩ |
    ⟨s, n, entry, _, rfl, -, he⟩ | ⟨s, n, entry, rfl, he⟩
  · rw [he, held?_nest]
  · have hne : ¬ (s = scope ∧ n = name) := fun hsn => h (by rw [Change.target?, hsn.1, hsn.2])
    have hs : s < tree.count := hc
    rw [he, held?_put hs, if_neg hne]
  · rw [he]
  · have hne : ¬ (s = scope ∧ n = name) := fun hsn => h (by rw [Change.target?, hsn.1, hsn.2])
    rw [he, held?_adjust, if_neg hne]

/-- Setting an entry moves no scope. -/
theorem outward_apply {target : ScopeId × Name} (h : change.target? = some target) (scope : ScopeId) :
    (change.apply tree).outward scope = tree.outward scope := by
  rcases apply_cases tree change with ⟨parent, rfl, -⟩ | ⟨s, n, entry, rfl, -, he⟩ |
    ⟨s, n, entry, _, rfl, -, he⟩ | ⟨s, n, entry, rfl, he⟩
  · cases h
  · rw [he]
    exact outward_congr (parents_adjustEntries _ _ _) scope
  · rw [he]
  · rw [he]
    exact outward_congr (parents_adjustEntries _ _ _) scope

private theorem findSome?_differs {α β : Type} {f g : α → Option β} {x : α} {xs : List α}
    (hfg : ∀ y, y ≠ x → f y = g y) (h : xs.findSome? f ≠ xs.findSome? g) :
    ∃ nearer farther, xs = nearer ++ x :: farther ∧ ∀ y ∈ nearer, g y = none := by
  induction xs with
  | nil => exact absurd rfl h
  | cons y xs ih =>
    by_cases hy : y = x
    · exact ⟨[], xs, by rw [hy]; rfl, fun _ hm => absurd hm List.not_mem_nil⟩
    · rw [List.findSome?_cons, List.findSome?_cons, hfg y hy] at h
      cases hg : g y with
      | some found => simp [hg] at h
      | none =>
        rw [hg] at h
        obtain ⟨nearer, farther, rfl, hn⟩ := ih h
        exact ⟨y :: nearer, farther, rfl, List.forall_mem_cons.mpr ⟨hg, hn⟩⟩

/-- Setting an entry is seen by its name only, and only where no nearer scope holds the name. -/
theorem seen?_apply (hc : change.scope < tree.count) {scope inner : ScopeId} {name other : Name}
    (ht : change.target? = some (scope, name))
    (h : (change.apply tree).seen? inner other ≠ tree.seen? inner other) :
    other = name ∧ ∃ nearer farther, tree.outward inner = nearer ++ scope :: farther ∧
      ∀ s ∈ nearer, tree.held? s name = none := by
  have hfg : ∀ s, (s, other) ≠ (scope, name) → (change.apply tree).held? s other = tree.held? s other := by
    intro s hne
    refine held?_apply_of_ne hc fun he => hne ?_
    exact Option.some.inj (he.symm.trans ht)
  rw [seen?_eq_findSome?, seen?_eq_findSome?, outward_apply ht] at h
  obtain ⟨nearer, farther, heq, hn⟩ := findSome?_differs (x := scope)
    (fun s hs => hfg s fun he => hs (congrArg Prod.fst he)) h
  by_cases ho : other = name
  · subst ho
    exact ⟨rfl, nearer, farther, heq, hn⟩
  · refine absurd ?_ h
    congr 1
    funext s
    exact hfg s fun he => ho (congrArg Prod.snd he)

theorem Rooted.nest (h : tree.Rooted) {parent : ScopeId} (hp : parent < tree.count) :
    (tree.nest parent).2.Rooted where
  nonempty := Nat.succ_pos _
  outermost := by
    have hne : globalScope ≠ tree.count := Nat.ne_of_lt h.nonempty
    rw [parent?_nest, if_neg hne]
    exact h.outermost
  older := by
    intro scope outer ho
    rw [parent?_nest] at ho
    split at ho
    · next hs =>
      cases ho
      exact hs ▸ hp
    · exact h.older scope outer ho
  inside := by
    intro scope hs hne
    rw [parent?_nest]
    split
    · rfl
    · next hc => exact h.inside scope (Nat.lt_of_le_of_ne (Nat.le_of_lt_succ hs) hc) hne

theorem Rooted.adjustEntries (h : tree.Rooted) (scope : ScopeId)
    (f : Keyed Name Entry → Keyed Name Entry) : (tree.adjustEntries scope f).Rooted where
  nonempty := by
    rw [count_adjustEntries]
    exact h.nonempty
  outermost := (parent?_adjustEntries _ _ _).trans h.outermost
  older := fun inner outer ho => h.older inner outer ((parent?_adjustEntries _ _ _).symm.trans ho)
  inside := by
    intro inner hs hne
    rw [count_adjustEntries] at hs
    rw [parent?_adjustEntries]
    exact h.inside inner hs hne

theorem Rooted.apply (h : tree.Rooted) (hc : change.scope < tree.count) : (change.apply tree).Rooted := by
  rcases apply_cases tree change with ⟨parent, rfl, he⟩ | ⟨s, n, entry, rfl, -, he⟩ |
    ⟨s, n, entry, _, rfl, -, he⟩ | ⟨s, n, entry, rfl, he⟩
  · rw [he]
    exact h.nest hc
  · rw [he]
    exact h.adjustEntries _ _
  · rw [he]
    exact h
  · rw [he]
    exact h.adjustEntries _ _

/-- No scope holds two entries for a name. -/
def Distinct (tree : ScopeTree) : Prop :=
  ∀ scope held, tree.scope? scope = some held → (held.entries.map (·.1)).Nodup

private theorem keys_adjust (f : Entry → Entry) (m : Keyed Name Entry) (name : Name) :
    (m.adjust f name).map (·.1) = m.map (·.1) := by
  induction m with
  | nil => rfl
  | cons pair rest ih =>
    rw [Keyed.adjust]
    split
    · next hk => rfl
    · exact congrArg (pair.1 :: ·) ih

private theorem Distinct.adjustEntries (h : tree.Distinct) (scope : ScopeId)
    {f : Keyed Name Entry → Keyed Name Entry}
    (hf : ∀ held, tree.scope? scope = some held → ((f held.entries).map (·.1)).Nodup) :
    (tree.adjustEntries scope f).Distinct := by
  intro other held hs
  rw [scope?_adjustEntries] at hs
  split at hs
  · next ho =>
    obtain ⟨before, hb, rfl⟩ := Option.map_eq_some_iff.mp hs
    exact hf before (ho ▸ hb)
  · exact h other held hs

theorem Distinct.apply (h : tree.Distinct) (change : Change) : (change.apply tree).Distinct := by
  rcases apply_cases tree change with ⟨parent, rfl, he⟩ | ⟨s, n, entry, rfl, hn, he⟩ |
    ⟨s, n, entry, _, rfl, -, he⟩ | ⟨s, n, entry, rfl, he⟩
  · rw [he]
    intro scope held hs
    rw [scope?_nest] at hs
    split at hs
    · cases hs
      exact .nil
    · exact h scope held hs
  · rw [he]
    refine h.adjustEntries s fun held hs => ?_
    rw [held?_of_scope? hs] at hn
    rw [Keyed.put_of_at?_eq_none hn]
    exact Keyed.nodup_map_concat (h s held hs) ((Keyed.at?_eq_none_iff _ _).mp hn)
  · rw [he]
    exact h
  · rw [he]
    refine h.adjustEntries s fun held hs => ?_
    rw [keys_adjust]
    exact h s held hs

theorem opened_concat (history : List Change) (change : Change) :
    opened (history ++ [change]) = opened history ++ opened [change] :=
  List.filterMap_append

end

section
variable {history : List Change} {tree : ScopeTree} {change : Change}
  (h : ∀ scope name entry, tree.held? scope name = some entry ↔ Holds history scope name entry)
include h

private theorem exists_held_iff (scope : ScopeId) (name : Name) :
    (∃ held, tree.held? scope name = some held) ↔ ∃ first, .enter scope name first ∈ history :=
  (exists_congr fun held => h scope name held).trans exists_holds_iff

/-- If a history says what a tree holds, it does so with one more change. -/
theorem held?_apply_iff (hc : change.scope < tree.count) (scope : ScopeId) (name : Name) (entry : Entry) :
    (change.apply tree).held? scope name = some entry ↔ Holds (history ++ [change]) scope name entry := by
  rw [holds_concat, ← h]
  rcases apply_cases tree change with ⟨p, rfl, he⟩ | ⟨s, n, new, rfl, hn, he⟩ |
    ⟨s, n, new, held, rfl, hh, he⟩ | ⟨s, n, new, rfl, he⟩
  · rw [he, held?_nest]
    simp
  · have hs : s < tree.count := hc
    rw [he, held?_put hs]
    split
    · next hsn =>
      obtain ⟨rfl, rfl⟩ := hsn
      have none_entered : ∀ earlier, .enter s n earlier ∉ history := by
        intro earlier hm
        obtain ⟨held, hh⟩ := (exists_held_iff h s n).mpr ⟨earlier, hm⟩
        rw [hn] at hh
        cases hh
      simp [hn, none_entered]
    · next hsn =>
      have hne : Change.enter s n new ≠ .enter scope name entry := by
        intro h
        cases h
        exact hsn ⟨rfl, rfl⟩
      simp [hne]
  · rw [he]
    refine ⟨fun h => .inr (.inr ⟨h, fun later => Change.noConfusion⟩), ?_⟩
    rintro (⟨h, none_entered⟩ | ⟨h, -⟩ | ⟨h, -⟩)
    · cases h
      obtain ⟨first, hf⟩ := (exists_held_iff h scope name).mp ⟨held, hh⟩
      exact absurd hf (none_entered first)
    · cases h
    · exact h
  · rw [he, held?_adjust]
    split
    · next hsn =>
      obtain ⟨rfl, rfl⟩ := hsn
      rw [← exists_held_iff h]
      simp [Option.map_eq_some_iff, and_comm]
    · next hsn =>
      have hne : ∀ e, Change.overwrite s n new ≠ .overwrite scope name e := by
        intro e h
        cases h
        exact hsn ⟨rfl, rfl⟩
      simp [hne]

end

namespace Reached
variable {history : List Change} {tree : ScopeTree}

theorem rooted (h : Reached history tree) : tree.Rooted := by
  induction h with
  | start => exact empty_rooted
  | step change _ hc ih => exact ih.apply hc

theorem distinct (h : Reached history tree) : tree.Distinct := by
  induction h with
  | start =>
    intro scope held hs
    cases Nat.lt_one_iff.mp (Numbered.lt_of_at? hs)
    cases hs
    exact .nil
  | step change _ _ ih => exact ih.apply change

/-- The scopes are the global one and those that the history opens, each in the parent given there. -/
theorem parents (h : Reached history tree) :
    tree.count = (opened history).length + 1 ∧ ∀ i : Nat, tree.parent? (i + 1) = (opened history)[i]? := by
  induction h with
  | start => exact ⟨rfl, fun i => rfl⟩
  | @step history tree change _ _ ih =>
    obtain ⟨count, parent⟩ := ih
    rw [opened_concat]
    rcases apply_cases tree change with ⟨p, rfl, he⟩ | ⟨s, n, entry, rfl, -, he⟩ |
      ⟨s, n, entry, _, rfl, -, he⟩ | ⟨s, n, entry, rfl, he⟩
    · have ho : opened [.nest p] = [p] := rfl
      rw [he, ho, List.length_append]
      refine ⟨congrArg (· + 1) count, fun i => ?_⟩
      rw [parent?_nest, count, parent]
      rcases Nat.lt_trichotomy i (opened history).length with hi | rfl | hi
      · have hne : i + 1 ≠ (opened history).length + 1 := by omega
        rw [if_neg hne, List.getElem?_append_left hi]
      · rw [if_pos rfl, List.getElem?_concat_length]
      · have hne : i + 1 ≠ (opened history).length + 1 := by omega
        rw [if_neg hne, List.getElem?_eq_none (Nat.le_of_lt hi), List.getElem?_eq_none]
        rw [List.length_append]
        exact hi
    · have ho : opened [.enter s n entry] = [] := rfl
      rw [he, ho, List.append_nil, count_adjustEntries]
      exact ⟨count, fun i => (parent?_adjustEntries _ _ _).trans (parent i)⟩
    · have ho : opened [.enter s n entry] = [] := rfl
      rw [he, ho, List.append_nil]
      exact ⟨count, parent⟩
    · have ho : opened [.overwrite s n entry] = [] := rfl
      rw [he, ho, List.append_nil, adjust, count_adjustEntries]
      exact ⟨count, fun i => (parent?_adjustEntries _ _ _).trans (parent i)⟩

/-- What a scope holds is what the history says that it holds. -/
theorem held (h : Reached history tree) (scope : ScopeId) (name : Name) (entry : Entry) :
    tree.held? scope name = some entry ↔ Holds history scope name entry := by
  induction h generalizing scope name entry with
  | start =>
    refine ⟨fun hh => ?_, fun hh => absurd hh not_holds_nil⟩
    obtain ⟨held, hs, ha⟩ := Option.bind_eq_some_iff.mp hh
    cases Nat.lt_one_iff.mp (Numbered.lt_of_at? hs)
    cases hs
    cases ha
  | step change _ hc ih => exact held?_apply_iff ih hc scope name entry

/-- A scope holds the names that were entered there. -/
theorem entered (h : Reached history tree) (scope : ScopeId) (name : Name) :
    (∃ held, tree.held? scope name = some held) ↔ ∃ first, .enter scope name first ∈ history :=
  exists_held_iff h.held scope name

/-- After every history of changes the tree is the symbol table which the history tells. -/
theorem faithful (h : Reached history tree) : Faithful history tree where
  count := h.parents.1
  outermost := h.rooted.outermost
  parent := h.parents.2
  older := h.rooted.older
  chain := by
    intro scope hs
    obtain ⟨chain, head, last⟩ := h.rooted.outward_chain hs
    exact ⟨chain, head, last, h.rooted.outward_descends hs⟩
  held := h.held
  entered := h.entered
  seen := by
    intro scope name entry
    rw [seen?_eq_findSome?, List.findSome?_eq_some_iff]
  refused := by
    intro scope name entry
    refine ⟨?_, fun hn => by rw [Change.apply, hn]; rfl⟩
    rw [enter?]
    cases tree.held? scope name <;> simp
  confined := fun change scope name ht hc inner other hne => seen?_apply hc ht hne
  entries := by
    intro scope name entry
    rw [ScopeTree.entries, held?]
    cases hs : tree.scope? scope with
    | none => simp
    | some own =>
      simp only [(Keyed.sorted_perm own.entries).mem_iff, Option.bind_some]
      exact ⟨Keyed.at?_of_mem (h.distinct scope own hs), Keyed.mem_of_at?⟩
  ascending := by
    intro scope
    rw [ScopeTree.entries]
    cases hs : tree.scope? scope with
    | none => exact .nil
    | some own => exact (Keyed.sorted_ascends (h.distinct scope own hs)).imp Name.bytes_lt

/-- A name is shadowed in an inner scope, refused there once more, and overwritten in the outer one. -/
def shadowing : List Change :=
  [.enter 0 "x" (.type 0), .nest 0, .enter 1 "x" (.type 1), .enter 1 "x" (.type 2), .nest 1,
    .overwrite 0 "x" (.type 3), .enter 0 "a" (.type 4)]

theorem shadowing_faithful : Faithful shadowing (shadowing.foldl Change.apply empty) := by
  have entered := Reached.start.step (.enter 0 "x" (.type 0)) (by decide)
  have inner := (entered.step (.nest 0) (by decide)).step (.enter 1 "x" (.type 1)) (by decide)
  have innermost := (inner.step (.enter 1 "x" (.type 2)) (by decide)).step (.nest 1) (by decide)
  exact Reached.faithful ((innermost.step (.overwrite 0 "x" (.type 3)) (by decide)).step
    (.enter 0 "a" (.type 4)) (by decide))

example : ((shadowing.foldl Change.apply empty).seen? 2 "x", (shadowing.foldl Change.apply empty).entries 0) =
    (some (.type 1), [("a", .type 4), ("x", .type 3)]) := by decide

end Reached
end SplLang.ScopeTree
