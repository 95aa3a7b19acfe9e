import SplLang.Declaring

/-! Reading runs of phases and trails backwards: a sequence succeeds exactly if its parts do,
one after the other, and fails with nothing but what one of its parts fails with. -/
namespace SplLang

namespace Phase
variable {α β : Type}

/-- A sequence succeeds if the rest succeeds on what the first part leaves. -/
theorem run_bind_eq_ok {x : Phase α} {next : α → Phase β} {start finish : Progress} {b : β} :
    (x >>= next).run start = .ok b finish ↔
      ∃ a middle, x.run start = .ok a middle ∧ (next a).run middle = .ok b finish := by
  rw [EStateM.run_bind]
  cases x.run start with
  | ok a middle => simp [and_assoc]
  | error d middle => simp

theorem run_bind_eq_error {x : Phase α} {next : α → Phase β} {start finish : Progress}
    {d : Diagnostic} :
    (x >>= next).run start = .error d finish ↔ x.run start = .error d finish ∨
      ∃ a middle, x.run start = .ok a middle ∧ (next a).run middle = .error d finish := by
  rw [EStateM.run_bind]
  cases x.run start with
  | ok a middle => simp [and_assoc]
  | error d middle => simp

theorem runFrom_of_ok {x : Phase α} {start finish : Progress} {a : α} (h : x.run start = .ok a finish) :
    (x.runFrom start).2 = finish := by
  rw [runFrom, h]

/-- Whether a step succeeds or fails can be computed. -/
theorem exists_run_ok {x : Phase α} {start : Progress} (h : (x.runFrom start).1.isOk) :
    ∃ a finish, x.run start = .ok a finish := by
  unfold runFrom at h
  cases hr : x.run start with
  | ok a finish => exact ⟨a, finish, rfl⟩
  | error d finish =>
    rw [hr] at h
    cases h

theorem exists_run_error {x : Phase α} {start : Progress} (h : (x.runFrom start).1.isOk = false) :
    ∃ d finish, x.run start = .error d finish := by
  unfold runFrom at h
  cases hr : x.run start with
  | ok a finish =>
    rw [hr] at h
    cases h
  | error d finish => exact ⟨d, finish, rfl⟩

/-- A repeated step that fails does so at some member of the list, behind those before it. -/
theorem run_forM_eq_error {γ : Type} {f : γ → Phase Unit} {xs : List γ} {start finish : Progress} {d : Diagnostic}
    (h : (xs.forM f).run start = .error d finish) :
    ∃ earlier x later middle, xs = earlier ++ x :: later ∧ (earlier.forM f).run start = .ok () middle ∧
      (f x).run middle = .error d finish := by
  induction xs generalizing start with
  | nil => cases h
  | cons x xs ih =>
    rcases run_bind_eq_error.mp h with h | ⟨_, next, hx, h⟩
    · exact ⟨[], x, xs, start, rfl, rfl, h⟩
    · obtain ⟨earlier, y, later, middle, rfl, hok, hy⟩ := ih h
      exact ⟨x :: earlier, y, later, middle, rfl, run_bind_eq_ok.mpr ⟨(), next, hx, hok⟩, hy⟩

/-- A repeated step without answers leaves what it leaves if its answers are kept. -/
theorem exists_run_mapM_of_forM {γ : Type} {f : γ → Phase Unit} {xs : List γ} {start finish : Progress} {u : Unit}
    (h : (xs.forM f).run start = .ok u finish) : ∃ us, (xs.mapM f).run start = .ok us finish := by
  induction xs generalizing start with
  | nil =>
    cases h
    exact ⟨[], rfl⟩
  | cons x xs ih =>
    obtain ⟨a, middle, hx, h⟩ := run_bind_eq_ok.mp h
    obtain ⟨us, hxs⟩ := ih h
    rw [List.mapM_cons]
    exact ⟨a :: us, run_bind_eq_ok.mpr ⟨a, middle, hx, run_bind_eq_ok.mpr ⟨us, finish, hxs, rfl⟩⟩⟩

@[simp]
theorem run_pure (a : α) (start : Progress) : (pure a : Phase α).run start = .ok a start := rfl

@[simp]
theorem run_context (start : Progress) : Phase.context.run start = .ok start.context start := rfl

@[simp]
theorem run_setContext (context : Context) (start : Progress) :
    (setContext context).run start = .ok () { start with context } := rfl

@[simp]
theorem run_report (event : Event) (start : Progress) :
    (report event).run start = .ok () { start with events := start.events ++ [event] } := rfl

@[simp]
theorem run_fail (position : Position) (cause : Cause) (start : Progress) :
    (fail position cause : Phase α).run start = .error ⟨position, cause⟩ start := rfl

theorem run_context_bind (next : Context → Phase β) (start : Progress) :
    (Phase.context >>= next).run start = (next start.context).run start := rfl

theorem run_expect_eq_ok {value : Option α} {position : Position} {cause : Cause} {a : α}
    {start finish : Progress} :
    (expect value position cause).run start = .ok a finish ↔ value = some a ∧ finish = start := by
  cases value with
  | none => simp [expect]
  | some v => simp [expect, eq_comm]

theorem run_require_eq_ok {condition : Prop} [Decidable condition] {position : Position}
    {cause : Cause} {start finish : Progress} :
    (require condition position cause).run start = .ok () finish ↔
      condition ∧ finish = start := by
  unfold require
  split
  · next h => simp [h, eq_comm]
  · next h => simp [h]

theorem run_enter_eq_ok {scope : ScopeId} {name : Name} {entry : Entry} {position : Position}
    {taken : Cause} {start finish : Progress} {u : Unit} :
    (enter scope name entry position taken).run start = .ok u finish ↔
      ∃ scopes, start.context.scopes.enter? scope name entry = some scopes ∧
        finish = { start with context := { start.context with scopes } } := by
  unfold enter
  rw [run_context_bind, run_bind_eq_ok]
  constructor
  · rintro ⟨scopes, _, he, h⟩
    obtain ⟨hs, rfl⟩ := run_expect_eq_ok.mp he
    cases h
    exact ⟨scopes, hs, rfl⟩
  · rintro ⟨scopes, hs, rfl⟩
    exact ⟨scopes, _, run_expect_eq_ok.mpr ⟨hs, rfl⟩, rfl⟩

/-- Findings go into the context before the outcome of the trail counts. -/
theorem run_follow {ω : Type} (t : Trail ω α) (put : Context → List ω → Context)
    (start : Progress) :
    (follow t put).run start = match t.result with
      | .ok a => .ok a ⟨put start.context t.found, start.events ++ t.events⟩
      | .error d => .error d ⟨put start.context t.found, start.events ++ t.events⟩ := by
  obtain ⟨found, events, result⟩ := t
  cases result <;> rfl

theorem run_follow_eq_ok {ω : Type} {t : Trail ω α} {put : Context → List ω → Context}
    {start finish : Progress} {a : α} :
    (follow t put).run start = .ok a finish ↔ t.result = .ok a ∧
      finish = ⟨put start.context t.found, start.events ++ t.events⟩ := by
  rw [run_follow]
  cases t.result <;> simp [eq_comm]

theorem run_follow_eq_error {ω : Type} {t : Trail ω α} {put : Context → List ω → Context}
    {start finish : Progress} {d : Diagnostic} :
    (follow t put).run start = .error d finish ↔ t.result = .error d ∧
      finish = ⟨put start.context t.found, start.events ++ t.events⟩ := by
  rw [run_follow]
  cases t.result <;> simp [eq_comm]

/-- The step succeeds exactly under the condition, and a success leaves what is stated. -/
structure Exact (x : Phase α) (start : Progress) (condition : Prop) (leaves : α → Progress → Prop) : Prop where
  succeeds : condition → ∃ a finish, x.run start = .ok a finish
  sound : ∀ a finish, x.run start = .ok a finish → condition ∧ leaves a finish

namespace Exact
variable {x : Phase α} {next : α → Phase β} {start : Progress} {condition later : Prop}
  {leaves : α → Progress → Prop} {leaves' : β → Progress → Prop}

/-- The condition of the rest may not depend on what the first part answers. -/
theorem bind (hx : Exact x start condition leaves)
    (hn : ∀ a middle, condition → leaves a middle → Exact (next a) middle later leaves') :
    Exact (x >>= next) start (condition ∧ later) leaves' where
  succeeds := by
    rintro ⟨hc, hl⟩
    obtain ⟨a, middle, hr⟩ := hx.succeeds hc
    obtain ⟨b, finish, hb⟩ := (hn a middle hc (hx.sound a middle hr).2).succeeds hl
    exact ⟨b, finish, run_bind_eq_ok.mpr ⟨a, middle, hr, hb⟩⟩
  sound := by
    intro b finish h
    obtain ⟨a, middle, hr, hb⟩ := run_bind_eq_ok.mp h
    obtain ⟨hc, hm⟩ := hx.sound a middle hr
    obtain ⟨hl, hf⟩ := (hn a middle hc hm).sound b finish hb
    exact ⟨⟨hc, hl⟩, hf⟩

theorem congr {condition' : Prop} (h : Exact x start condition leaves) (hc : condition ↔ condition') :
    Exact x start condition' leaves := propext hc ▸ h

theorem imp {weaker : α → Progress → Prop} (h : Exact x start condition leaves)
    (hl : ∀ a finish, condition → leaves a finish → weaker a finish) : Exact x start condition weaker where
  succeeds := h.succeeds
  sound a finish hr :=
    have hs := h.sound a finish hr
    ⟨hs.1, hl a finish hs.1 hs.2⟩

/-- A first part that cannot fail adds no condition. -/
theorem bind_of_true (hx : Exact x start True leaves)
    (hn : ∀ a middle, leaves a middle → Exact (next a) middle later leaves') :
    Exact (x >>= next) start later leaves' :=
  (hx.bind fun a middle _ => hn a middle).congr (by rw [true_and])

/-- A rest that cannot fail adds no condition. -/
theorem bind_true (hx : Exact x start condition leaves)
    (hn : ∀ a middle, condition → leaves a middle → Exact (next a) middle True leaves') :
    Exact (x >>= next) start condition leaves' :=
  (hx.bind hn).congr (by rw [and_true])

theorem pure {a : α} (h : leaves a start) : Exact (Pure.pure a : Phase α) start True leaves where
  succeeds _ := ⟨a, start, rfl⟩
  sound := by
    intro b finish hr
    cases hr
    exact ⟨trivial, h⟩

theorem fail {position : Position} {cause : Cause} (h : ¬ condition) :
    Exact (Phase.fail position cause : Phase α) start condition leaves where
  succeeds hc := absurd hc h
  sound := by
    intro a finish hr
    cases hr

theorem context_bind {next : Context → Phase β} (h : Exact (next start.context) start condition leaves') :
    Exact (Phase.context >>= next) start condition leaves' where
  succeeds := h.succeeds
  sound := h.sound

theorem report (event : Event) :
    Exact (Phase.report event) start True fun _ finish => finish.context = start.context where
  succeeds _ := ⟨(), _, rfl⟩
  sound := by
    intro a finish hr
    cases hr
    exact ⟨trivial, rfl⟩

theorem require (condition : Prop) [Decidable condition] (position : Position) (cause : Cause) :
    Exact (Phase.require condition position cause) start condition fun _ finish => finish = start where
  succeeds hc := ⟨(), start, run_require_eq_ok.mpr ⟨hc, rfl⟩⟩
  sound _ _ hr := run_require_eq_ok.mp hr

/-- A name can be declared in a scope that does not hold it, and nothing but that scope changes. -/
theorem enter (scope : ScopeId) (name : Name) (entry : Entry) (position : Position) (taken : Cause) :
    Exact (Phase.enter scope name entry position taken) start (start.context.scopes.held? scope name = none)
      fun _ finish => finish.context =
        { start.context with scopes := start.context.scopes.adjustEntries scope (·.put name entry) } where
  succeeds h := by
    have he : start.context.scopes.enter? scope name entry =
        some (start.context.scopes.adjustEntries scope (·.put name entry)) := by
      rw [ScopeTree.enter?, h]
    exact ⟨(), _, run_enter_eq_ok.mpr ⟨_, he, rfl⟩⟩
  sound := by
    intro _ finish hr
    obtain ⟨scopes, he, rfl⟩ := run_enter_eq_ok.mp hr
    unfold ScopeTree.enter? at he
    split at he
    · cases he
    · next hn =>
      cases he
      exact ⟨hn, rfl⟩

end Exact
end Phase

namespace Trail
variable {ω α β : Type}

@[simp]
theorem result_leave_bind {left : List ω} {next : Unit → Trail ω β} :
    (leave left >>= next).result = (next ()).result := rfl

@[simp]
theorem result_report_bind {event : Event} {next : Unit → Trail ω β} :
    (report event >>= next).result = (next ()).result := rfl

theorem result_bind_eq_ok_unit {t : Trail ω Unit} {next : Unit → Trail ω β} {b : β} {P : Prop}
    (h : t.result = .ok () ↔ P) : (t >>= next).result = .ok b ↔ P ∧ (next ()).result = .ok b := by
  rw [result_bind_eq_ok, ← h]
  exact ⟨fun ⟨_, ha, hb⟩ => ⟨ha, hb⟩, fun ⟨ha, hb⟩ => ⟨(), ha, hb⟩⟩

/-- A sequence whose first part answers one thing if it succeeds. -/
theorem result_bind_eq_ok_of {t : Trail ω α} {next : α → Trail ω β} {a : α} {b : β} {P : Prop}
    (h : ∀ {r}, t.result = .ok r ↔ P ∧ r = a) :
    (t >>= next).result = .ok b ↔ P ∧ (next a).result = .ok b := by
  rw [result_bind_eq_ok]
  constructor
  · rintro ⟨r, hr, hb⟩
    obtain ⟨hp, rfl⟩ := h.mp hr
    exact ⟨hp, hb⟩
  · rintro ⟨hp, hb⟩
    exact ⟨a, h.mpr ⟨hp, rfl⟩, hb⟩

theorem result_bind_of_ok {t : Trail ω α} {a : α} (h : t.result = .ok a) (next : α → Trail ω β) :
    (t >>= next).result = (next a).result := by
  obtain ⟨found, events, result⟩ := t
  cases h
  rfl

theorem require_of {condition : Prop} [Decidable condition] (h : condition) (position : Position) (cause : Cause) :
    (require condition position cause : Trail ω Unit) = pure () := if_pos h

/-- A sequence of steps without answers succeeds if each of them does. -/
theorem result_forM_eq_ok {γ : Type} {f : γ → Trail ω Unit} {xs : List γ} :
    (xs.forM f).result = .ok () ↔ ∀ x ∈ xs, (f x).result = .ok () := by
  induction xs with
  | nil => simp
  | cons x xs ih =>
    rw [List.forall_mem_cons, ← ih]
    exact result_bind_eq_ok_unit Iff.rfl

/-- A sequence whose second part succeeds or fails whatever the first one answers. -/
theorem succeeds_bind {t : Trail ω α} {next : α → Trail ω β} {P : Prop}
    (h : ∀ a, (∃ b, (next a).result = .ok b) ↔ P) :
    (∃ b, (t >>= next).result = .ok b) ↔ (∃ a, t.result = .ok a) ∧ P := by
  simp only [result_bind_eq_ok]
  constructor
  · rintro ⟨b, a, ha, hb⟩
    exact ⟨⟨a, ha⟩, (h a).mp ⟨b, hb⟩⟩
  · rintro ⟨⟨a, ha⟩, hp⟩
    obtain ⟨b, hb⟩ := (h a).mpr hp
    exact ⟨b, a, ha, hb⟩

theorem succeeds_bind_of {t : Trail ω α} {next : α → Trail ω β}
    (h : ∀ a, ∃ b, (next a).result = .ok b) : (∃ b, (t >>= next).result = .ok b) ↔ ∃ a, t.result = .ok a :=
  (succeeds_bind fun a => iff_true_intro (h a)).trans (and_iff_left trivial)

/-- The computation succeeds with a value and leaves exactly these findings. -/
def Gives (t : Trail ω α) (a : α) (found : List ω) : Prop := t.result = .ok a ∧ t.found = found

theorem gives_bind {t : Trail ω α} {next : α → Trail ω β} {b : β} {found : List ω} :
    (t >>= next).Gives b found ↔ ∃ a first rest, t.Gives a first ∧ (next a).Gives b rest ∧
      found = first ++ rest := by
  constructor
  · rintro ⟨hr, hf⟩
    obtain ⟨a, ha, hb⟩ := result_bind_eq_ok.mp hr
    exact ⟨a, _, _, ⟨ha, rfl⟩, ⟨hb, rfl⟩, by rw [← hf, found_bind_of_ok next ha]⟩
  · rintro ⟨a, first, rest, ⟨ha, rfl⟩, ⟨hb, rfl⟩, rfl⟩
    exact ⟨result_bind_eq_ok.mpr ⟨a, ha, hb⟩, found_bind_of_ok next ha⟩

@[simp]
theorem gives_pure {a b : α} {found : List ω} :
    (pure a : Trail ω α).Gives b found ↔ a = b ∧ found = [] := by
  simp [Gives, eq_comm]

@[simp]
theorem gives_leave {left found : List ω} {u : Unit} :
    (leave left).Gives u found ↔ found = left := by
  simp [Gives, leave, eq_comm]

@[simp]
theorem gives_report {event : Event} {found : List ω} {u : Unit} :
    (report event : Trail ω Unit).Gives u found ↔ found = [] := by
  simp [Gives, report, eq_comm]

@[simp]
theorem gives_fail {position : Position} {cause : Cause} {a : α} {found : List ω} :
    (fail position cause : Trail ω α).Gives a found ↔ False := by
  simp [Gives, fail]

@[simp]
theorem gives_expect {value : Option α} {position : Position} {cause : Cause} {a : α}
    {found : List ω} :
    (expect value position cause : Trail ω α).Gives a found ↔ value = some a ∧ found = [] := by
  cases value <;> simp [expect]

@[simp]
theorem gives_require {condition : Prop} [Decidable condition] {position : Position}
    {cause : Cause} {u : Unit} {found : List ω} :
    (require condition position cause : Trail ω Unit).Gives u found ↔
      condition ∧ found = [] := by
  unfold require
  split
  · next h => simp [h]
  · next h => simp [h]

theorem gives_require_bind {condition : Prop} [Decidable condition] {position : Position}
    {cause : Cause} {next : Unit → Trail ω β} {b : β} {found : List ω} :
    (require condition position cause >>= next).Gives b found ↔
      condition ∧ (next ()).Gives b found := by
  unfold require
  split
  · next h => simp [h]
  · next h => simp [h, gives_bind]

theorem gives_expect_bind {value : Option α} {position : Position} {cause : Cause}
    {next : α → Trail ω β} {b : β} {found : List ω} :
    (expect value position cause >>= next).Gives b found ↔
      ∃ a, value = some a ∧ (next a).Gives b found := by
  cases value <;> simp [expect, gives_bind]

theorem gives_report_bind {event : Event} {next : Unit → Trail ω β} {b : β} {found : List ω} :
    (report event >>= next).Gives b found ↔ (next ()).Gives b found := by
  rw [gives_bind]
  constructor
  · rintro ⟨_, _, _, hr, hn, rfl⟩
    rw [gives_report.mp hr]
    exact hn
  · intro hn
    exact ⟨(), [], found, gives_report.mpr rfl, hn, rfl⟩

theorem gives_leave_bind {left : List ω} {next : Unit → Trail ω β} {b : β} {found : List ω} :
    (leave left >>= next).Gives b found ↔
      ∃ rest, (next ()).Gives b rest ∧ found = left ++ rest := by
  rw [gives_bind]
  constructor
  · rintro ⟨_, _, rest, hl, hn, rfl⟩
    rw [gives_leave.mp hl]
    exact ⟨rest, hn, rfl⟩
  · rintro ⟨rest, hn, rfl⟩
    exact ⟨(), left, rest, gives_leave.mpr rfl, hn, rfl⟩

/-- A repeated computation that fails does so at some member of the list, behind those before it. -/
theorem forM_of_error {γ : Type} {f : γ → Trail ω Unit} {xs : List γ} {d : Diagnostic}
    (h : (xs.forM f).result = .error d) :
    ∃ earlier x later found, xs = earlier ++ x :: later ∧ (earlier.forM f).Gives () found ∧
      (f x).result = .error d ∧ (xs.forM f).found = found ++ (f x).found := by
  induction xs with
  | nil => cases h
  | cons x xs ih =>
    cases hx : (f x).result with
    | error e =>
      have hfirst : (x :: xs).forM f = ⟨(f x).found, (f x).events, .error e⟩ := by
        show (f x).andThen _ = _
        rw [andThen, hx]
      rw [hfirst] at h ⊢
      exact ⟨[], x, xs, [], rfl, ⟨rfl, rfl⟩, hx.trans h, rfl⟩
    | ok u =>
      have hrest : ((x :: xs).forM f).result = (xs.forM f).result := result_bind_of_ok hx _
      have hfound : ((x :: xs).forM f).found = (f x).found ++ (xs.forM f).found := found_bind_of_ok _ hx
      obtain ⟨earlier, y, later, found, rfl, hgives, hy, he⟩ := ih (hrest ▸ h)
      refine ⟨x :: earlier, y, later, (f x).found ++ found, rfl, ?_, hy, ?_⟩
      · exact gives_bind.mpr ⟨u, _, found, ⟨hx, rfl⟩, hgives, rfl⟩
      · rw [hfound, he, List.append_assoc]

theorem gives_of_ok {t : Trail ω α} {a : α} (h : t.result = .ok a) : t.Gives a t.found := ⟨h, rfl⟩

/-- A failure has a cause that the predicate allows. -/
def FailsOnly (allowed : Cause → Prop) (t : Trail ω α) : Prop :=
  ∀ d, t.result = .error d → allowed d.cause

namespace FailsOnly
variable {allowed : Cause → Prop}

theorem bind {t : Trail ω α} {next : α → Trail ω β} (ht : FailsOnly allowed t)
    (hn : ∀ a, t.result = .ok a → FailsOnly allowed (next a)) :
    FailsOnly allowed (t >>= next) := by
  obtain ⟨found, events, result⟩ := t
  intro d h
  cases result with
  | ok a => exact hn a rfl d h
  | error e =>
    cases h
    exact ht d rfl

theorem pure (a : α) : FailsOnly allowed (Pure.pure a : Trail ω α) := by
  intro d h
  cases h

theorem leave (found : List ω) : FailsOnly allowed (Trail.leave found) := by
  intro d h
  cases h

theorem report (event : Event) : FailsOnly allowed (Trail.report event : Trail ω Unit) := by
  intro d h
  cases h

theorem fail {position : Position} {cause : Cause} (h : allowed cause) :
    FailsOnly allowed (Trail.fail position cause : Trail ω α) := by
  intro d he
  cases he
  exact h

theorem expect {value : Option α} {position : Position} {cause : Cause}
    (h : value = none → allowed cause) :
    FailsOnly allowed (Trail.expect value position cause : Trail ω α) := by
  cases value with
  | none => exact fail (h rfl)
  | some a => exact pure a

theorem require {condition : Prop} [Decidable condition] {position : Position} {cause : Cause}
    (h : ¬ condition → allowed cause) :
    FailsOnly allowed (Trail.require condition position cause : Trail ω Unit) := by
  unfold Trail.require
  split
  · exact pure ()
  · next hc => exact fail (h hc)

theorem mono {weaker : Cause → Prop} {t : Trail ω α} (h : FailsOnly allowed t)
    (hw : ∀ cause, allowed cause → weaker cause) : FailsOnly weaker t :=
  fun d hd => hw _ (h d hd)

theorem forM {γ : Type} {f : γ → Trail ω Unit} (xs : List γ)
    (h : ∀ x ∈ xs, FailsOnly allowed (f x)) : FailsOnly allowed (xs.forM f) := by
  induction xs with
  | nil => exact pure ()
  | cons x xs ih =>
    exact bind (h x (by simp)) fun _ _ => ih fun y hy => h y (List.mem_cons_of_mem _ hy)

/-- A repeated computation fails because of some member of the list. -/
theorem forM_map {β γ : Type} {k : β → γ} {f : γ → Trail ω Unit} {allowed : β → Cause → Prop} {xs : List β}
    (h : ∀ x ∈ xs, FailsOnly (allowed x) (f (k x))) :
    FailsOnly (fun cause => ∃ x ∈ xs, allowed x cause) ((xs.map k).forM f) := by
  apply forM
  intro y hy
  obtain ⟨x, hx, rfl⟩ := List.mem_map.mp hy
  exact (h x hx).mono fun _ hc => ⟨x, hx, hc⟩

end FailsOnly
end Trail
end SplLang
