import SplLang.Proofs.Scopes

/-! The scopes around a scope. A name means what the innermost of them holds for it, and where
every scope lies in an older one the scopes around are the chain of the parents. -/
namespace SplLang
namespace ScopeTree

private theorem outwardIn_lt {scopes : List Scope} {scope outer : ScopeId} (h : outer ∈ outwardIn scopes scope) :
    outer < scopes.length := by
  induction scopes generalizing scope with
  | nil => cases h
  | cons newest older ih =>
    have inner : ∀ {inner : ScopeId}, outer ∈ outwardIn older inner → outer < (newest :: older).length :=
      fun hi => Nat.lt_succ_of_lt (ih hi)
    unfold outwardIn at h
    split at h
    · next hs =>
      have hself : scope < (newest :: older).length := hs ▸ Nat.lt_succ_self _
      split at h
      · rcases List.mem_cons.mp h with rfl | h
        · exact hself
        · exact inner h
      · rw [List.mem_singleton.mp h]
        exact hself
    · exact inner h

private theorem findSome?_congr {α β : Type} {f g : α → Option β} {xs : List α} (h : ∀ x ∈ xs, f x = g x) :
    xs.findSome? f = xs.findSome? g := by
  induction xs with
  | nil => rfl
  | cons x xs ih =>
    rw [List.findSome?_cons, List.findSome?_cons, h x List.mem_cons_self,
      ih fun y hy => h y (List.mem_cons_of_mem _ hy)]

private theorem seenIn?_eq (scopes : List Scope) (scope : ScopeId) (name : Name) :
    seenIn? scopes scope name =
      (outwardIn scopes scope).findSome? fun outer => (Numbered.at? scopes outer).bind (·.entries.at? name) := by
  induction scopes generalizing scope with
  | nil => rfl
  | cons newest older ih =>
    -- The scopes around an older one are older still, so the newest does not count among them.
    have hinner : ∀ inner, seenIn? older inner name = (outwardIn older inner).findSome? fun outer =>
        (Numbered.at? (newest :: older) outer).bind (·.entries.at? name) := by
      intro inner
      rw [ih]
      apply findSome?_congr
      intro outer ho
      rw [Numbered.at?_cons_of_ne (Nat.ne_of_lt (outwardIn_lt ho))]
    unfold seenIn? outwardIn
    split
    · next hs =>
      cases hp : newest.parent with
      | none =>
        cases he : newest.entries.at? name <;> simp [hs, Numbered.at?_cons_self, he]
      | some parent =>
        rw [List.findSome?_cons, hs, Numbered.at?_cons_self, Option.bind_some]
        cases newest.entries.at? name with
        | none => exact hinner parent
        | some entry => rfl
    · exact hinner scope

private theorem outwardIn_of_no_parent {scopes : List Scope} {scope : ScopeId} {held : Scope}
    (h : Numbered.at? scopes scope = some held) (hp : held.parent = none) : outwardIn scopes scope = [scope] := by
  induction scopes with
  | nil => cases h
  | cons newest older ih =>
    unfold outwardIn
    by_cases hs : scope = older.length
    · rw [hs, Numbered.at?_cons_self] at h
      cases h
      rw [if_pos hs, hp]
    · rw [Numbered.at?_cons_of_ne hs] at h
      rw [if_neg hs, ih h]

private theorem outwardIn_of_parent {scopes : List Scope} {scope parent : ScopeId} {held outer : Scope}
    (h : Numbered.at? scopes scope = some held) (hp : held.parent = some parent)
    (ho : Numbered.at? scopes parent = some outer) (hn : outer.parent = none) (hlt : parent < scope) :
    outwardIn scopes scope = [scope, parent] := by
  induction scopes with
  | nil => cases h
  | cons newest older ih =>
    unfold outwardIn
    by_cases hs : scope = older.length
    · rw [Numbered.at?_cons_of_ne (hs ▸ Nat.ne_of_lt hlt)] at ho
      rw [hs, Numbered.at?_cons_self] at h
      cases h
      rw [if_pos hs, hp]
      exact congrArg (scope :: ·) (outwardIn_of_no_parent ho hn)
    · rw [Numbered.at?_cons_of_ne hs] at h
      rw [Numbered.at?_cons_of_ne (Nat.ne_of_lt (Nat.lt_trans hlt (Numbered.lt_of_at? h)))] at ho
      rw [if_neg hs, ih h ho]

variable {tree : ScopeTree} {scope : ScopeId}

/-- Around a scope that lies in the global one there are these two. -/
theorem outward_of_nested (hg : tree.parent? 0 = none) (h : tree.parent? scope = some 0) (hpos : 0 < scope) :
    tree.outward scope = [scope, 0] := by
  obtain ⟨held, hs, hp⟩ := Option.bind_eq_some_iff.mp h
  have hc := Nat.lt_trans hpos (lt_count_of_scope? hs)
  obtain ⟨outer, ho⟩ := Option.isSome_iff_exists.mp ((Numbered.at?_isSome_iff _ _).mpr hc)
  rw [parent?_of_scope? ho] at hg
  exact outwardIn_of_parent hs hp ho hg hpos

/-- A name means what the innermost of the scopes around holds for it. -/
theorem seen?_eq_findSome? (name : Name) :
    tree.seen? scope name = (tree.outward scope).findSome? (tree.held? · name) :=
  seenIn?_eq tree.newestFirst scope name

private theorem outwardIn_cons_of_ne {newest : Scope} {older : List Scope} {scope : ScopeId}
    (h : scope ≠ older.length) : outwardIn (newest :: older) scope = outwardIn older scope := by
  rw [outwardIn, if_neg h]

private theorem outwardIn_eq_cons {scopes : List Scope} {scope : ScopeId} {held : Scope}
    (h : Numbered.at? scopes scope = some held) (older : ∀ parent, held.parent = some parent → parent < scope) :
    outwardIn scopes scope = scope :: held.parent.elim [] (outwardIn scopes) := by
  induction scopes with
  | nil => cases h
  | cons newest rest ih =>
    by_cases hs : scope = rest.length
    · subst hs
      rw [Numbered.at?_cons_self] at h
      cases h
      rw [outwardIn, if_pos rfl]
      cases hp : held.parent with
      | none => rfl
      | some parent => exact congrArg _ (outwardIn_cons_of_ne (Nat.ne_of_lt (older parent hp))).symm
    · rw [Numbered.at?_cons_of_ne hs] at h
      have hlt := Numbered.lt_of_at? h
      rw [outwardIn_cons_of_ne hs, ih h]
      cases hp : held.parent with
      | none => rfl
      | some parent =>
        exact congrArg _ (outwardIn_cons_of_ne (Nat.ne_of_lt (Nat.lt_trans (older parent hp) hlt))).symm

/-- Every scope lies in an older one, apart from the global scope, which lies in none. -/
structure Rooted (tree : ScopeTree) : Prop where
  nonempty : 0 < tree.count
  outermost : tree.parent? globalScope = none
  older : ∀ scope parent, tree.parent? scope = some parent → parent < scope
  inside : ∀ scope, scope < tree.count → scope ≠ globalScope → (tree.parent? scope).isSome

theorem rooted_single (entries : Keyed Name Entry) : Rooted ⟨[⟨none, entries⟩]⟩ where
  nonempty := Nat.one_pos
  outermost := rfl
  older := by
    intro scope parent h
    obtain ⟨held, hs, hp⟩ := Option.bind_eq_some_iff.mp h
    cases Nat.lt_one_iff.mp (Numbered.lt_of_at? hs)
    cases hs
    cases hp
  inside := fun scope hs hne => absurd (Nat.lt_one_iff.mp hs) hne

/-- Around a scope stand the scope itself and what is around its parent. -/
theorem Rooted.outward_eq (h : tree.Rooted) (hs : scope < tree.count) :
    tree.outward scope = scope :: (tree.parent? scope).elim [] tree.outward := by
  obtain ⟨held, ho⟩ := Option.isSome_iff_exists.mp ((Numbered.at?_isSome_iff _ _).mpr hs)
  rw [parent?_of_scope? ho]
  exact outwardIn_eq_cons ho fun parent hp => h.older scope parent ((parent?_of_scope? ho).trans hp)

/-- Going outward every scope is followed by its parent, down to the global scope. -/
theorem Rooted.outward_chain (h : tree.Rooted) (hs : scope < tree.count) :
    (tree.outward scope).IsChain (fun inner outer => tree.parent? inner = some outer) ∧
      (tree.outward scope).head? = some scope ∧ (tree.outward scope).getLast? = some globalScope := by
  induction scope using Nat.strongRecOn with
  | ind scope ih =>
    rw [h.outward_eq hs]
    cases hp : tree.parent? scope with
    | none =>
      have hg : scope = globalScope := by
        refine Decidable.byContradiction fun hne => ?_
        have hi := h.inside scope hs hne
        rw [hp] at hi
        cases hi
      exact ⟨.singleton scope, rfl, congrArg some hg⟩
    | some parent =>
      have hlt := h.older scope parent hp
      obtain ⟨chain, head, last⟩ := ih parent hlt (Nat.lt_trans hlt hs)
      obtain ⟨outer, ho⟩ := List.head?_eq_some_iff.mp head
      rw [ho] at chain last
      rw [Option.elim_some, ho]
      exact ⟨List.isChain_cons_cons.mpr ⟨hp, chain⟩, rfl, (List.getLast?_cons_cons ..).trans last⟩

theorem Rooted.outward_descends (h : tree.Rooted) (hs : scope < tree.count) :
    (tree.outward scope).Pairwise (· > ·) :=
  ((h.outward_chain hs).1.imp fun inner outer hp => h.older inner outer hp).pairwise

private theorem outwardIn_congr {scopes scopes' : List Scope} (h : scopes.map (·.parent) = scopes'.map (·.parent))
    (scope : ScopeId) : outwardIn scopes scope = outwardIn scopes' scope := by
  induction scopes generalizing scopes' scope with
  | nil => rw [List.map_eq_nil_iff.mp h.symm]
  | cons newest older ih =>
    cases scopes' with
    | nil => cases h
    | cons newest' older' =>
      obtain ⟨hp, ho⟩ : newest.parent = newest'.parent ∧ older.map (·.parent) = older'.map (·.parent) :=
        List.cons.inj h
      have hl : older.length = older'.length := by simpa using congrArg List.length ho
      rw [outwardIn, outwardIn, hl, hp]
      simp only [ih ho]

/-- The scopes around one are told by the parents. -/
theorem outward_congr {tree' : ScopeTree}
    (h : tree.newestFirst.map (·.parent) = tree'.newestFirst.map (·.parent)) (scope : ScopeId) :
    tree.outward scope = tree'.outward scope :=
  outwardIn_congr h scope

end ScopeTree
end SplLang
