import SplLang.Proofs.Steps

/-! Steps that go through a list of rules and fail with the diagnostic of the first rule that is broken. Steps in
sequence go through their lists one after the other. -/
namespace SplLang

/-- What breaks a rule and what is reported then. -/
structure Demand where
  diagnostic : Diagnostic
  Broken : Prop

section
variable {ρ σ : Type} {demand : ρ → Demand} {rule : ρ} {rules others : List ρ} {d : Diagnostic}

/-- The diagnostic is that of a rule that is broken, and no rule in front of it is. -/
def FirstBroken (demand : ρ → Demand) (rules : List ρ) (d : Diagnostic) : Prop :=
  ∃ before rule after, rules = before ++ rule :: after ∧ (demand rule).diagnostic = d ∧ (demand rule).Broken ∧
    ∀ earlier ∈ before, ¬ (demand earlier).Broken

/-- No rule's code exceeds the bound, so the reported code does not. -/
theorem FirstBroken.code_le {bound : Nat} (h : FirstBroken demand rules d)
    (hb : ∀ rule, (demand rule).diagnostic.code ≤ bound) : d.code ≤ bound := by
  obtain ⟨_, rule, _, _, rfl, _⟩ := h
  exact hb rule

theorem not_firstBroken_nil : ¬ FirstBroken demand [] d := by
  rintro ⟨before, rule, after, he, _⟩
  cases before <;> cases he

theorem firstBroken_cons_iff : FirstBroken demand (rule :: rules) d ↔
    (demand rule).diagnostic = d ∧ (demand rule).Broken ∨ ¬ (demand rule).Broken ∧ FirstBroken demand rules d := by
  constructor
  · rintro ⟨before, first, after, he, hd, hb, hn⟩
    cases before with
    | nil =>
      cases he
      exact .inl ⟨hd, hb⟩
    | cons _ before =>
      cases he
      obtain ⟨hrule, hn⟩ := List.forall_mem_cons.mp hn
      exact .inr ⟨hrule, before, first, after, rfl, hd, hb, hn⟩
  · rintro (⟨hd, hb⟩ | ⟨hrule, before, first, after, rfl, hd, hb, hn⟩)
    · exact ⟨[], rule, rules, rfl, hd, hb, by simp⟩
    · exact ⟨rule :: before, first, after, rfl, hd, hb, List.forall_mem_cons.mpr ⟨hrule, hn⟩⟩

theorem firstBroken_append_iff : FirstBroken demand (rules ++ others) d ↔
    FirstBroken demand rules d ∨ (∀ rule ∈ rules, ¬ (demand rule).Broken) ∧ FirstBroken demand others d := by
  induction rules with
  | nil => simp [not_firstBroken_nil]
  | cons rule rules ih =>
    rw [List.cons_append, firstBroken_cons_iff, firstBroken_cons_iff, ih, List.forall_mem_cons, and_or_left, or_assoc,
      and_assoc]

theorem firstBroken_map_iff {f : σ → ρ} {rules : List σ} :
    FirstBroken demand (rules.map f) d ↔ FirstBroken (fun rule => demand (f rule)) rules d := by
  induction rules with
  | nil => simp [not_firstBroken_nil]
  | cons rule rules ih => rw [List.map_cons, firstBroken_cons_iff, firstBroken_cons_iff, ih]

/-- If some rule is broken, one of those that are is the first. -/
theorem exists_firstBroken (hr : rule ∈ rules) (hb : (demand rule).Broken) : ∃ d, FirstBroken demand rules d := by
  induction rules with
  | nil => cases hr
  | cons other rules ih =>
    by_cases ho : (demand other).Broken
    · exact ⟨_, firstBroken_cons_iff.mpr (.inl ⟨rfl, ho⟩)⟩
    · rcases List.mem_cons.mp hr with rfl | hr
      · exact absurd hb ho
      · obtain ⟨d, hd⟩ := ih hr
        exact ⟨d, firstBroken_cons_iff.mpr (.inr ⟨ho, hd⟩)⟩

end

namespace Trail
variable {ω α β ρ : Type} {demand : ρ → Demand} {rules later : List ρ}

private theorem result_bind_of_error {t : Trail ω α} {d : Diagnostic} (h : t.result = .error d) (next : α → Trail ω β) :
    (t >>= next).result = .error d := by
  obtain ⟨found, events, result⟩ := t
  cases h
  rfl

/-- The computation fails with the diagnostic of the first rule that is broken, and only so. -/
def Refuses (demand : ρ → Demand) (rules : List ρ) (t : Trail ω α) : Prop :=
  ∀ d, t.result = .error d ↔ FirstBroken demand rules d

namespace Refuses

/-- If the computation succeeds, no rule is broken. -/
theorem kept {t : Trail ω α} {a : α} (h : t.Refuses demand rules) (ha : t.result = .ok a) :
    ∀ rule ∈ rules, ¬ (demand rule).Broken := by
  intro rule hr hb
  obtain ⟨d, hd⟩ := exists_firstBroken hr hb
  rw [(h d).mpr hd] at ha
  cases ha

/-- A computation that succeeds breaks no rule. -/
theorem of_ok {t : Trail ω α} {a : α} (ha : t.result = .ok a) : t.Refuses demand [] := by
  intro d
  rw [ha]
  exact iff_of_false (fun h => by cases h) not_firstBroken_nil

theorem pure (a : α) : Refuses demand [] (Pure.pure a : Trail ω α) := of_ok rfl

theorem bind {t : Trail ω α} {next : α → Trail ω β} (ht : t.Refuses demand rules)
    (hn : ∀ a, t.result = .ok a → (next a).Refuses demand later) : (t >>= next).Refuses demand (rules ++ later) := by
  intro d
  rw [firstBroken_append_iff, ← ht d]
  cases hr : t.result with
  | ok a =>
    rw [result_bind_of_ok hr, hn a hr d]
    constructor
    · exact fun h => .inr ⟨ht.kept hr, h⟩
    · rintro (h | ⟨_, h⟩)
      · cases h
      · exact h
  | error e =>
    rw [result_bind_of_error hr]
    constructor
    · intro h
      cases h
      exact .inl rfl
    · rintro (h | ⟨hkept, _⟩)
      · cases h
        rfl
      · obtain ⟨_, rule, _, rfl, _, hb, _⟩ := (ht e).mp hr
        exact absurd hb (hkept rule (List.mem_append_right _ List.mem_cons_self))

/-- A second part that cannot fail adds no rule. -/
theorem bind_pure {t : Trail ω α} {next : α → Trail ω β} (ht : t.Refuses demand rules)
    (hn : ∀ a, t.result = .ok a → (next a).Refuses demand []) : (t >>= next).Refuses demand rules :=
  List.append_nil rules ▸ ht.bind hn

/-- Rules may be told apart by where they belong. -/
theorem map {σ : Type} {f : σ → ρ} {own : σ → Demand} {t : Trail ω α} {rules : List σ} (h : t.Refuses own rules)
    (hf : ∀ rule, demand (f rule) = own rule) : t.Refuses demand (rules.map f) := by
  obtain rfl : (fun rule => demand (f rule)) = own := funext hf
  exact fun d => (h d).trans firstBroken_map_iff.symm

/-- The first rule is broken; the others do not count. -/
theorem fail {rule : ρ} {position : Position} {cause : Cause} (hd : (demand rule).diagnostic = ⟨position, cause⟩)
    (hb : (demand rule).Broken) : Refuses demand (rule :: rules) (Trail.fail position cause : Trail ω α) := by
  intro d
  rw [firstBroken_cons_iff, hd]
  simp [Trail.fail, hb]

/-- A rule that is kept may stand in front. -/
theorem skip {t : Trail ω α} {rule : ρ} (hn : ¬ (demand rule).Broken) (h : t.Refuses demand rules) :
    t.Refuses demand (rule :: rules) := by
  intro d
  rw [firstBroken_cons_iff, h d]
  simp [hn]

theorem expect {value : Option α} {rule : ρ} {position : Position} {cause : Cause}
    (hd : (demand rule).diagnostic = ⟨position, cause⟩) (hb : (demand rule).Broken ↔ value = none) :
    Refuses demand [rule] (Trail.expect value position cause : Trail ω α) := by
  cases value with
  | none => exact fail hd (hb.mpr rfl)
  | some a => exact skip (fun h => by cases hb.mp h) (pure a)

theorem require {condition : Prop} [Decidable condition] {rule : ρ} {position : Position} {cause : Cause}
    (hd : (demand rule).diagnostic = ⟨position, cause⟩) (hb : (demand rule).Broken ↔ ¬ condition) :
    Refuses demand [rule] (Trail.require condition position cause : Trail ω Unit) := by
  unfold Trail.require
  split
  · next h => exact skip (fun hn => hb.mp hn h) (pure ())
  · next h => exact fail hd (hb.mpr h)

theorem expect_bind {value : Option α} {next : α → Trail ω β} {rule : ρ} {position : Position} {cause : Cause}
    (hd : (demand rule).diagnostic = ⟨position, cause⟩) (hb : (demand rule).Broken ↔ value = none)
    (hn : ∀ a, value = some a → (next a).Refuses demand later) :
    (Trail.expect value position cause >>= next).Refuses demand (rule :: later) :=
  (expect hd hb).bind fun a ha => hn a (result_expect_eq_ok.mp ha)

theorem require_bind {condition : Prop} [Decidable condition] {next : Unit → Trail ω β} {rule : ρ}
    {position : Position} {cause : Cause} (hd : (demand rule).diagnostic = ⟨position, cause⟩)
    (hb : (demand rule).Broken ↔ ¬ condition) (hn : condition → (next ()).Refuses demand later) :
    (Trail.require condition position cause >>= next).Refuses demand (rule :: later) :=
  (require hd hb).bind fun _ ha => hn (result_require_eq_ok.mp ha)

theorem forM {γ : Type} {f : γ → Trail ω Unit} {xs : List γ} {rulesOf : γ → List ρ}
    (h : ∀ x ∈ xs, (f x).Refuses demand (rulesOf x)) : (xs.forM f).Refuses demand (xs.flatMap rulesOf) := by
  induction xs with
  | nil => exact pure ()
  | cons x xs ih =>
    obtain ⟨hx, hxs⟩ := List.forall_mem_cons.mp h
    exact hx.bind fun _ _ => ih hxs

end Refuses
end Trail

namespace Phase
variable {α β ρ : Type} {demand : ρ → Demand} {rules later : List ρ} {start : Progress}

/-- From the start the step fails with the diagnostic of the first rule that is broken, and only so. -/
def Refuses (demand : ρ → Demand) (rules : List ρ) (x : Phase α) (start : Progress) : Prop :=
  ∀ d, (∃ finish, x.run start = .error d finish) ↔ FirstBroken demand rules d

namespace Refuses

/-- If the step succeeds, no rule is broken. -/
theorem kept {x : Phase α} {a : α} {finish : Progress} (h : Refuses demand rules x start)
    (ha : x.run start = .ok a finish) : ∀ rule ∈ rules, ¬ (demand rule).Broken := by
  intro rule hr hb
  obtain ⟨d, hd⟩ := exists_firstBroken hr hb
  obtain ⟨_, he⟩ := (h d).mpr hd
  rw [ha] at he
  cases he

/-- A step that succeeds breaks no rule. -/
theorem of_ok {x : Phase α} {a : α} {finish : Progress} (ha : x.run start = .ok a finish) :
    Refuses demand [] x start := by
  intro d
  refine iff_of_false ?_ not_firstBroken_nil
  rintro ⟨_, he⟩
  rw [ha] at he
  cases he

theorem bind {x : Phase α} {next : α → Phase β} (hx : Refuses demand rules x start)
    (hn : ∀ a middle, x.run start = .ok a middle → Refuses demand later (next a) middle) :
    Refuses demand (rules ++ later) (x >>= next) start := by
  intro d
  rw [firstBroken_append_iff, ← hx d]
  simp only [run_bind_eq_error]
  constructor
  · rintro ⟨finish, he | ⟨a, middle, ha, he⟩⟩
    · exact .inl ⟨finish, he⟩
    · exact .inr ⟨hx.kept ha, (hn a middle ha d).mp ⟨finish, he⟩⟩
  · rintro (⟨finish, he⟩ | ⟨hkept, hd⟩)
    · exact ⟨finish, .inl he⟩
    · cases hr : x.run start with
      | ok a middle =>
        obtain ⟨finish, he⟩ := (hn a middle hr d).mpr hd
        exact ⟨finish, .inr ⟨a, middle, rfl, he⟩⟩
      | error e middle =>
        obtain ⟨_, rule, _, rfl, _, hb, _⟩ := (hx e).mp ⟨middle, hr⟩
        exact absurd hb (hkept rule (List.mem_append_right _ List.mem_cons_self))

/-- A second part that cannot fail adds no rule. -/
theorem bind_pure {x : Phase α} {next : α → Phase β} (hx : Refuses demand rules x start)
    (hn : ∀ a middle, x.run start = .ok a middle → Refuses demand [] (next a) middle) :
    Refuses demand rules (x >>= next) start :=
  List.append_nil rules ▸ hx.bind hn

/-- Rules may be told apart by where they belong. -/
theorem map {σ : Type} {f : σ → ρ} {own : σ → Demand} {x : Phase α} {rules : List σ} (h : Refuses own rules x start)
    (hf : ∀ rule, demand (f rule) = own rule) : Refuses demand (rules.map f) x start := by
  obtain rfl : (fun rule => demand (f rule)) = own := funext hf
  exact fun d => (h d).trans firstBroken_map_iff.symm

theorem context_bind {next : Context → Phase β} (h : Refuses demand rules (next start.context) start) :
    Refuses demand rules (Phase.context >>= next) start := h

/-- The first rule is broken; the others do not count. -/
theorem fail {rule : ρ} {position : Position} {cause : Cause} (hd : (demand rule).diagnostic = ⟨position, cause⟩)
    (hb : (demand rule).Broken) : Refuses demand (rule :: rules) (Phase.fail position cause : Phase α) start := by
  intro d
  rw [firstBroken_cons_iff, hd]
  simp [hb]

/-- A rule that is kept may stand in front. -/
theorem skip {x : Phase α} {rule : ρ} (hn : ¬ (demand rule).Broken) (h : Refuses demand rules x start) :
    Refuses demand (rule :: rules) x start := by
  intro d
  rw [firstBroken_cons_iff, h d]
  simp [hn]

theorem expect {value : Option α} {rule : ρ} {position : Position} {cause : Cause}
    (hd : (demand rule).diagnostic = ⟨position, cause⟩) (hb : (demand rule).Broken ↔ value = none) :
    Refuses demand [rule] (Phase.expect value position cause) start := by
  cases value with
  | none => exact fail hd (hb.mpr rfl)
  | some a => exact skip (fun h => by cases hb.mp h) (of_ok (run_pure a start))

theorem require {condition : Prop} [Decidable condition] {rule : ρ} {position : Position} {cause : Cause}
    (hd : (demand rule).diagnostic = ⟨position, cause⟩) (hb : (demand rule).Broken ↔ ¬ condition) :
    Refuses demand [rule] (Phase.require condition position cause) start := by
  unfold Phase.require
  split
  · next h => exact skip (fun hn => hb.mp hn h) (of_ok (run_pure () start))
  · next h => exact fail hd (hb.mpr h)

/-- A name is refused where the scope holds it. -/
theorem enter {rule : ρ} {scope : ScopeId} {name : Name} {entry : Entry} {position : Position} {taken : Cause}
    (hd : (demand rule).diagnostic = ⟨position, taken⟩)
    (hb : (demand rule).Broken ↔ start.context.scopes.held? scope name ≠ none) :
    Refuses demand [rule] (Phase.enter scope name entry position taken) start := by
  have hnone : start.context.scopes.enter? scope name entry = none ↔
      start.context.scopes.held? scope name ≠ none := by
    unfold ScopeTree.enter?
    cases start.context.scopes.held? scope name <;> simp
  unfold Phase.enter
  exact context_bind ((expect hd (hb.trans hnone.symm)).bind_pure fun _ _ _ => of_ok (run_setContext _ _))

theorem follow {ω : Type} {t : Trail ω α} {put : Context → List ω → Context} (h : t.Refuses demand rules) :
    Refuses demand rules (Phase.follow t put) start := by
  intro d
  rw [← h d]
  simp only [run_follow_eq_error]
  exact ⟨fun ⟨_, he, _⟩ => he, fun he => ⟨_, he, rfl⟩⟩

end Refuses
end Phase
end SplLang
