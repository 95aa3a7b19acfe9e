import Mathlib.Data.List.Induction
import SplLang.Proofs.Placed

/-! Writing the same again. Of several values that are written to one place the last one counts, so a sequence of
updates that is written twice leaves what it leaves when it is written once. -/
namespace SplLang

/-- An update that is written later need not be written before updates of what is held already. -/
structure Overwrites {σ ω : Type} (put : σ → ω → σ) (Held : σ → ω → Prop) : Prop where
  held : ∀ s p, Held (put s p) p
  stays : ∀ s p q, Held s q → Held (put s p) q
  again : ∀ s p, put (put s p) p = put s p
  absorbs : ∀ s p q, Held s q → put (put (put s p) q) p = put (put s q) p

namespace Overwrites
variable {σ ω : Type} {put : σ → ω → σ} {Held : σ → ω → Prop}

private theorem held_foldl (h : Overwrites put Held) {s : σ} {q : ω} (ps : List ω) (hq : Held s q) :
    Held (ps.foldl put s) q := by
  induction ps generalizing s with
  | nil => exact hq
  | cons p ps ih => exact ih (h.stays s p q hq)

private theorem held_of_mem (h : Overwrites put Held) (s : σ) (ps : List ω) : ∀ q ∈ ps, Held (ps.foldl put s) q := by
  induction ps generalizing s with
  | nil => exact nofun
  | cons p ps ih => exact List.forall_mem_cons.mpr ⟨h.held_foldl ps (h.held s p), ih (put s p)⟩

private theorem absorbs_foldl (h : Overwrites put Held) {s : σ} {p : ω} {qs : List ω} (hq : ∀ q ∈ qs, Held s q) :
    put (qs.foldl put (put s p)) p = put (qs.foldl put s) p := by
  induction qs generalizing s with
  | nil => exact h.again s p
  | cons q qs ih =>
    obtain ⟨hs, hqs⟩ := List.forall_mem_cons.mp hq
    have hnext : ∀ other ∈ qs, Held (put s q) other := fun other hm => h.stays s q other (hqs other hm)
    have hlate : ∀ other ∈ qs, Held (put (put s p) q) other :=
      fun other hm => h.stays _ q other (h.stays s p other (hqs other hm))
    calc put (qs.foldl put (put (put s p) q)) p
      _ = put (qs.foldl put (put (put (put s p) q) p)) p := (ih hlate).symm
      _ = put (qs.foldl put (put (put s q) p)) p := by rw [h.absorbs s p q hs]
      _ = put (qs.foldl put (put s q)) p := ih hnext

/-- Updates in sequence that are written again change nothing. -/
theorem foldl_twice (h : Overwrites put Held) (s : σ) (ps : List ω) :
    ps.foldl put (ps.foldl put s) = ps.foldl put s := by
  induction ps using List.reverseRecOn with
  | nil => rfl
  | append_singleton ps p ih =>
    simp only [List.foldl_append, List.foldl_cons, List.foldl_nil]
    rw [h.absorbs_foldl (h.held_of_mem s ps), ih]

end Overwrites

namespace Keyed
variable {κ ν : Type} [DecidableEq κ]

theorem put_put (m : Keyed κ ν) (key : κ) (value other : ν) :
    (m.put key value).put key other = m.put key other := by
  induction m with
  | nil => simp [put]
  | cons pair rest ih => by_cases hk : pair.1 = key <;> simp [put, hk, ih]

theorem mem_keys_put {m : Keyed κ ν} {key other : κ} {value : ν} :
    other ∈ (m.put key value).map (·.1) ↔ other = key ∨ other ∈ m.map (·.1) := by
  induction m with
  | nil => simp [put]
  | cons pair rest ih =>
    by_cases hk : pair.1 = key
    · simp [put, hk]
    · simp only [put, hk, if_false, List.map_cons, List.mem_cons, ih]
      exact or_left_comm

/-- A key that is held keeps its place among the others. -/
theorem put_put_put {m : Keyed κ ν} {other : κ} (ho : other ∈ m.map (·.1)) (key : κ) (value next : ν) :
    ((m.put key value).put other next).put key value = (m.put other next).put key value := by
  induction m with
  | nil => cases ho
  | cons pair rest ih =>
    by_cases hk : pair.1 = key
    · by_cases hl : pair.1 = other
      · simp [put, hk, hl.symm.trans hk]
      · have hne : key ≠ other := fun he => hl (hk.trans he)
        simp [put, hk, hne]
    · by_cases hl : pair.1 = other
      · have hne : other ≠ key := fun he => hk (hl.trans he)
        simp [put, hl, hne, put_put]
      · have hm : other ∈ rest.map (·.1) := (List.mem_cons.mp ho).resolve_left (Ne.symm hl)
        simp [put, hk, hl, ih hm]

private theorem put_overwrites :
    Overwrites (fun (m : Keyed κ ν) (pair : κ × ν) => m.put pair.1 pair.2) fun m pair => pair.1 ∈ m.map (·.1) where
  held _ _ := mem_keys_put.mpr (.inl rfl)
  stays _ _ _ h := mem_keys_put.mpr (.inr h)
  again m pair := m.put_put pair.1 pair.2 pair.2
  absorbs _ pair _ h := put_put_put h pair.1 pair.2 _

/-- Pairs that are put again leave the keys and values as they are. -/
theorem putAll_twice (m : Keyed κ ν) (pairs : List (κ × ν)) : (m.putAll pairs).putAll pairs = m.putAll pairs :=
  put_overwrites.foldl_twice m pairs

section
variable {f g : ν → ν}

private theorem adjust_again (hf : ∀ v, f (f v) = f v) (m : Keyed κ ν) (key : κ) :
    (m.adjust f key).adjust f key = m.adjust f key := by
  induction m with
  | nil => rfl
  | cons pair rest ih => by_cases hk : pair.1 = key <;> simp [adjust, hk, hf, ih]

private theorem adjust_absorbs
    (hf : ∀ v, f (f v) = f v) (hg : ∀ v, f (g (f v)) = f (g v)) (m : Keyed κ ν) (key other : κ) :
    ((m.adjust f key).adjust g other).adjust f key = (m.adjust g other).adjust f key := by
  induction m with
  | nil => rfl
  | cons pair rest ih =>
    by_cases hk : pair.1 = key
    · by_cases hl : key = other <;> simp [adjust, hk, hl, hf, hg]
    · by_cases hl : pair.1 = other
      · have hne : other ≠ key := fun he => hk (hl.trans he)
        simp [adjust, hl, hne, adjust_again hf]
      · simp [adjust, hk, hl, ih]

end
end Keyed

namespace Numbered
variable {α : Type} {f g : α → α}

private theorem adjust_again (hf : ∀ x, f (f x) = f x) (xs : List α) (i : Nat) :
    adjust f (adjust f xs i) i = adjust f xs i := by
  induction xs with
  | nil => rfl
  | cons x xs ih => by_cases hi : i = xs.length <;> simp [adjust, hi, hf, ih]

private theorem adjust_absorbs (hf : ∀ x, f (f x) = f x) (hg : ∀ x, f (g (f x)) = f (g x)) (xs : List α) (i j : Nat) :
    adjust f (adjust g (adjust f xs i) j) i = adjust f (adjust g xs j) i := by
  induction xs with
  | nil => rfl
  | cons x xs ih =>
    by_cases hi : i = xs.length
    · by_cases hj : j = xs.length <;> simp [adjust, hi, hj, hf, hg]
    · by_cases hj : j = xs.length
      · simp [adjust, hi, hj, adjust_again hf]
      · simp [adjust, hi, hj, ih]

end Numbered

private theorem ScopeTree.adjust_again {f : Entry → Entry} (hf : ∀ entry, f (f entry) = f entry) (tree : ScopeTree)
    (scope : ScopeId) (name : Name) : (tree.adjust scope name f).adjust scope name f = tree.adjust scope name f :=
  congrArg mk (Numbered.adjust_again (fun s => congrArg (Scope.mk s.parent) (Keyed.adjust_again hf s.entries name)) _ _)

private theorem ScopeTree.adjust_absorbs {f g : Entry → Entry} (hf : ∀ entry, f (f entry) = f entry)
    (hg : ∀ entry, f (g (f entry)) = f (g entry)) (tree : ScopeTree) (scope other : ScopeId) (name key : Name) :
    ((tree.adjust scope name f).adjust other key g).adjust scope name f =
      (tree.adjust other key g).adjust scope name f :=
  congrArg mk (Numbered.adjust_absorbs (fun s => congrArg (Scope.mk s.parent) (Keyed.adjust_again hf s.entries name))
    (fun s => congrArg (Scope.mk s.parent) (Keyed.adjust_absorbs hf hg s.entries name key)) _ _ _)

private theorem setOffsets_again (slots : List Slot) (offsets : List UInt32) :
    setOffsets (setOffsets slots offsets) offsets = setOffsets slots offsets := by
  induction slots generalizing offsets with
  | nil => cases offsets <;> rfl
  | cons slot slots ih =>
    cases offsets with
    | nil => rfl
    | cons offset offsets => exact congrArg _ (ih offsets)

private theorem setOffsets_absorbs (slots : List Slot) (offsets others : List UInt32) :
    setOffsets (setOffsets (setOffsets slots offsets) others) offsets =
      setOffsets (setOffsets slots others) offsets := by
  induction slots generalizing offsets others with
  | nil => cases offsets <;> cases others <;> rfl
  | cons slot slots ih =>
    cases offsets with
    | nil => rfl
    | cons offset offsets =>
      cases others with
      | nil => exact congrArg _ (setOffsets_again slots offsets)
      | cons other others => exact congrArg _ (ih offsets others)

namespace Placement

private theorem put_eq (scopes : ScopeTree) (p : Placement) :
    put scopes p = scopes.adjust p.target.1 p.target.2 p.change := by
  cases p <;> rfl

private theorem change_again (p : Placement) (entry : Entry) : p.change (p.change entry) = p.change entry := by
  cases p <;> cases entry <;> simp [change, Entry.mapVar, Entry.mapProc, setOffsets_again]

private theorem change_absorbs (p q : Placement) (entry : Entry) :
    p.change (q.change (p.change entry)) = p.change (q.change entry) := by
  cases p <;> cases q <;> cases entry <;>
    simp [change, Entry.mapVar, Entry.mapProc, setOffsets_again, setOffsets_absorbs]

/-- A placement writes the same wherever it is written, and a later one to the same entry counts. -/
theorem put_overwrites : Overwrites put fun _ _ => True where
  held _ _ := trivial
  stays _ _ _ _ := trivial
  again scopes p := by
    simp only [put_eq]
    exact ScopeTree.adjust_again p.change_again _ _ _
  absorbs scopes p q _ := by
    simp only [put_eq]
    exact ScopeTree.adjust_absorbs p.change_again (p.change_absorbs q) _ _ _ _ _

end Placement

/-- Placements that are written again change nothing. -/
theorem Context.place_twice (context : Context) (placements : List Placement) :
    (context.place placements).place placements = context.place placements :=
  congrArg (fun scopes => { context with scopes }) (Placement.put_overwrites.foldl_twice context.scopes placements)

end SplLang
