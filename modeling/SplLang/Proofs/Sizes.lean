import Mathlib.Algebra.Ring.Nat
import SplLang.Proofs.Unfolding

/-! Tables that hold `int`, `boolean` and array types entered one by one. The bytes of a type
in such a table are four times its words, as unbounded numbers. -/
namespace SplLang.TypeTable

/-- A type that a declaration can mean: one of the table, but not what a comparison yields. -/
def Declarable (table : TypeTable) (type : TypeId) : Prop :=
  type < table.count ∧ type ≠ TypeId.boolean

/-- The primitives, and array types over what declarations can mean. -/
inductive Built : TypeTable → Prop where
  | primitives : Built .primitives
  | add {table next : TypeTable} {element type : TypeId} {length : UInt32} :
      Built table → table.Declarable element →
        table.addArray? element length = some (type, next) → Built next

/-- The first table is the second without some of its newest types. -/
def Extends (old new : TypeTable) : Prop := ∃ newer, new.newestFirst = newer ++ old.newestFirst

/-- Words of a value as the definitions give them, without any bound. -/
def wordsIn : List TypeDef → TypeId → Nat
  | [], _ => 0
  | newest :: older, type =>
    if type = older.length then
      match newest with
      | .primitive _ => 1
      | .array element length => length.toNat * wordsIn older element
    else wordsIn older type

/-- How many words a value of a type takes. -/
def words (table : TypeTable) (type : TypeId) : Nat := wordsIn table.newestFirst type

variable {table next : TypeTable} {element type : TypeId} {length : UInt32}

theorem addArray?_eq_some (h : table.addArray? element length = some (type, next)) :
    type = table.count ∧ next = ⟨.array element length :: table.newestFirst⟩ ∧
      length.toNat * (table.byteSize element).toNat < 2^32 := by
  unfold addArray? at h
  obtain ⟨w, hw, h⟩ := Option.bind_eq_some_iff.mp h
  have hlt := Word.unsigned?_isSome_iff.mp (by rw [hw]; rfl)
  cases h
  exact ⟨rfl, rfl, hlt⟩

theorem addArray?_eq_none_iff :
    table.addArray? element length = none ↔ 2^32 ≤ length.toNat * (table.byteSize element).toNat := by
  have hsome : (Word.unsigned? (length.toNat * (table.byteSize element).toNat)).isSome ↔
      length.toNat * (table.byteSize element).toNat < 2^32 := Word.unsigned?_isSome_iff
  rw [← not_lt, ← hsome]
  unfold addArray?
  cases Word.unsigned? (length.toNat * (table.byteSize element).toNat) <;> simp

theorem Extends.refl (table : TypeTable) : table.Extends table := ⟨[], rfl⟩

theorem Extends.trans {a b c : TypeTable} (hab : a.Extends b) (hbc : b.Extends c) : a.Extends c := by
  obtain ⟨newer, hb⟩ := hab
  obtain ⟨newest, hc⟩ := hbc
  exact ⟨newest ++ newer, by rw [hc, hb, List.append_assoc]⟩

theorem extends_of_addArray? (h : table.addArray? element length = some (type, next)) :
    table.Extends next := by
  obtain ⟨_, rfl, _⟩ := addArray?_eq_some h
  exact ⟨[.array element length], rfl⟩

theorem Extends.count_le (h : table.Extends next) : table.count ≤ next.count := by
  obtain ⟨newer, hn⟩ := h
  simp [count, hn]

theorem Declarable.mono (ht : table.Declarable type) (h : table.Extends next) :
    next.Declarable type :=
  ⟨Nat.lt_of_lt_of_le ht.1 h.count_le, ht.2⟩

/-- A type keeps its definition when the table grows. -/
theorem Extends.def? (h : table.Extends next) (ht : type < table.count) :
    next.def? type = table.def? type := by
  obtain ⟨newer, hn⟩ := h
  have hs := (Numbered.at?_isSome_iff table.newestFirst type).mpr ht
  obtain ⟨d, hd⟩ := Option.isSome_iff_exists.mp hs
  unfold TypeTable.def?
  rw [hn, hd]
  exact Numbered.at?_append _ hd

theorem array?_eq_some : table.array? type = some (element, length) ↔
    table.def? type = some (.array element length) := by
  unfold array?
  split
  · next e n hd => simp [hd]
  · next hd =>
    constructor
    · intro h
      cases h
    · intro h
      exact absurd h (hd _ _)

theorem Extends.byteSize (h : table.Extends next) (ht : type < table.count) :
    next.byteSize type = table.byteSize type := by
  obtain ⟨newer, hn⟩ := h
  rw [TypeTable.byteSize, hn, byteSizeIn_eq_foldIn, foldIn_append newer ht, ← byteSizeIn_eq_foldIn]
  rfl

theorem Extends.text (h : table.Extends next) (ht : type < table.count) : next.text type = table.text type := by
  obtain ⟨newer, hn⟩ := h
  rw [TypeTable.text, hn, textIn_eq_foldIn, foldIn_append newer ht, ← textIn_eq_foldIn]
  rfl

theorem Extends.array? (h : table.Extends next) (ht : type < table.count) :
    next.array? type = table.array? type := by
  unfold TypeTable.array?
  rw [h.def? ht]

private theorem saturatingMul_toNat {a b : UInt32} (h : a.toNat * b.toNat < 2^32) :
    (Word.saturatingMul a b).toNat = a.toNat * b.toNat := by
  obtain ⟨w, hw⟩ := Option.isSome_iff_exists.mp (Word.unsigned?_isSome_iff.mpr h)
  rw [Word.saturatingMul, hw, Option.getD_some]
  exact Word.toNat_of_unsigned? hw

private theorem wordsIn_eq_foldIn (defs : List TypeDef) (type : TypeId) :
    wordsIn defs type = foldIn 0 (fun _ => 1) (fun length element => length.toNat * element) defs type := by
  induction defs generalizing type with
  | nil => rfl
  | cons newest older ih => cases newest <;> simp only [wordsIn, foldIn, ih]

private theorem primitives_no_array : primitives.def? type ≠ some (.array element length) := by
  intro hd
  unfold TypeTable.def? primitives at hd
  simp only [Numbered.at?] at hd
  split at hd
  · cases hd
  · split at hd <;> cases hd

/-- An array type of the larger table is the new one or was there before. -/
theorem array_of_addArray? {element' new : TypeId} {length' : UInt32}
    (ha : table.addArray? element length = some (new, next)) (hd : next.def? type = some (.array element' length')) :
    (type = table.count ∧ element' = element ∧ length' = length) ∨
      table.def? type = some (.array element' length') := by
  obtain ⟨-, rfl, -⟩ := addArray?_eq_some ha
  by_cases ht : type = table.newestFirst.length
  · rw [TypeTable.def?, ht, Numbered.at?_cons_self] at hd
    cases hd
    exact .inl ⟨ht, rfl, rfl⟩
  · rw [TypeTable.def?, Numbered.at?_cons_of_ne ht] at hd
    exact .inr hd

/-- Every array type lies over an older type, and its bytes fit in a word. -/
structure Founded (table : TypeTable) : Prop where
  descending : table.Descending
  fits : ∀ ⦃type element : TypeId⦄ ⦃length : UInt32⦄, table.def? type = some (.array element length) →
    length.toNat * (table.byteSize element).toNat < 2^32

namespace Founded

theorem primitives : TypeTable.primitives.Founded :=
  ⟨fun _ _ _ hd => absurd hd primitives_no_array, fun _ _ _ hd => absurd hd primitives_no_array⟩

theorem add (h : table.Founded) (he : element < table.count) (ha : table.addArray? element length = some (type, next)) :
    next.Founded := by
  have hx := extends_of_addArray? ha
  obtain ⟨-, -, hlt⟩ := addArray?_eq_some ha
  constructor
  · intro type element' length' hd
    rcases array_of_addArray? ha hd with ⟨rfl, rfl, -⟩ | hd
    · exact he
    · exact h.descending hd
  · intro type element' length' hd
    rcases array_of_addArray? ha hd with ⟨-, rfl, rfl⟩ | hd
    · rwa [hx.byteSize he]
    · rw [hx.byteSize (Nat.lt_trans (h.descending hd) (Numbered.lt_of_at? hd))]
      exact h.fits hd

/-- The bytes of an array are those of its elements; nothing is cut off. -/
theorem byteSize_array (h : table.Founded) (hd : table.def? type = some (.array element length)) :
    (table.byteSize type).toNat = length.toNat * (table.byteSize element).toNat := by
  rw [byteSize, byteSizeIn_eq_foldIn, foldIn_array hd (h.descending hd), ← byteSizeIn_eq_foldIn]
  exact saturatingMul_toNat (h.fits hd)

private theorem words_array (h : table.Founded) (hd : table.def? type = some (.array element length)) :
    table.words type = length.toNat * table.words element := by
  rw [words, words, wordsIn_eq_foldIn, wordsIn_eq_foldIn, foldIn_array hd (h.descending hd)]

/-- Bytes are four times the words. -/
theorem byteSize_eq (h : table.Founded) (type : TypeId) : (table.byteSize type).toNat = 4 * table.words type := by
  induction type using Nat.strongRecOn with
  | ind type ih =>
    cases hd : table.def? type with
    | none =>
      rw [byteSize, byteSizeIn_eq_foldIn, foldIn_missing hd, words, wordsIn_eq_foldIn, foldIn_missing hd]
      rfl
    | some d =>
      cases d with
      | primitive kind =>
        rw [byteSize, byteSizeIn_eq_foldIn, foldIn_primitive hd, words, wordsIn_eq_foldIn, foldIn_primitive hd]
        rfl
      | array element length =>
        rw [h.byteSize_array hd, h.words_array hd, ih element (h.descending hd)]
        exact Nat.mul_left_comm _ _ _

end Founded

private theorem Built.founded (h : table.Built) : table.Founded := by
  induction h with
  | primitives => exact .primitives
  | add _ hd ha ih => exact ih.add hd.1 ha

/-- No size in a table built so was cut off: bytes are four times the words. -/
theorem Built.byteSize_eq (h : table.Built) (type : TypeId) :
    (table.byteSize type).toNat = 4 * table.words type :=
  h.founded.byteSize_eq type

private theorem Built.declarable_element (h : table.Built)
    (hd : table.def? type = some (.array element length)) : table.Declarable element := by
  induction h with
  | primitives => exact absurd hd primitives_no_array
  | add _ hde hn ih =>
    have hx := extends_of_addArray? hn
    rcases array_of_addArray? hn hd with ⟨-, rfl, -⟩ | hd
    · exact hde.mono hx
    · exact (ih hd).mono hx

/-- An array type takes the words of its elements, and its bytes fit in a word. -/
theorem Built.array (h : table.Built) (ha : table.array? type = some (element, length)) :
    table.Declarable element ∧ table.words type = length.toNat * table.words element ∧
      4 * table.words type < 2^32 := by
  have hd := array?_eq_some.mp ha
  refine ⟨h.declarable_element hd, h.founded.words_array hd, ?_⟩
  rw [← h.byteSize_eq, h.founded.byteSize_array hd]
  exact h.founded.fits hd

/-- The bytes of an array are those of its elements. -/
theorem Built.byteSize_array (h : table.Built) (ha : table.array? type = some (element, length)) :
    (table.byteSize type).toNat = length.toNat * (table.byteSize element).toNat :=
  h.founded.byteSize_array (array?_eq_some.mp ha)

theorem Built.two_le_count (h : table.Built) : 2 ≤ table.count := by
  induction h with
  | primitives => exact Nat.le_refl 2
  | add _ _ hn ih => exact Nat.le_trans ih (extends_of_addArray? hn).count_le

theorem Built.words_int (h : table.Built) : table.words TypeId.int = 1 := by
  induction h with
  | primitives => rfl
  | @add table next element type length hb _ hn ih =>
    obtain ⟨_, rfl, _⟩ := addArray?_eq_some hn
    have hne : TypeId.int ≠ table.newestFirst.length :=
      Nat.ne_of_lt (Nat.lt_of_lt_of_le (by decide) hb.two_le_count)
    simp only [words, wordsIn, hne, if_false]
    exact ih

theorem Built.declarable_int (h : table.Built) : table.Declarable TypeId.int :=
  ⟨Nat.lt_of_lt_of_le (by decide) h.two_le_count, by decide⟩

/-- A declarable type that is no array type is `int`. -/
theorem Built.eq_int (h : table.Built) (ht : table.Declarable type) (ha : table.array? type = none) :
    type = TypeId.int := by
  induction h with
  | primitives =>
    have hlt : type < 2 := ht.1
    have hne : type ≠ 1 := ht.2
    exact Nat.lt_one_iff.mp (Nat.lt_of_le_of_ne (Nat.le_of_lt_succ hlt) hne)
  | @add table next element new length _ _ hn ih =>
    have hx := extends_of_addArray? hn
    obtain ⟨_, rfl, _⟩ := addArray?_eq_some hn
    by_cases he : type = table.newestFirst.length
    · have hnew : TypeTable.array? ⟨.array element length :: table.newestFirst⟩ type =
          some (element, length) := by
        rw [array?_eq_some, TypeTable.def?, he, Numbered.at?_cons_self]
      rw [hnew] at ha
      cases ha
    · have hlt : (type : Nat) < table.newestFirst.length + 1 := ht.1
      have hlt' : type < table.count := Nat.lt_of_le_of_ne (Nat.le_of_lt_succ hlt) he
      rw [hx.array? hlt'] at ha
      exact ih ⟨hlt', ht.2⟩ ha

/-- Where arrays are passed by reference, what is passed by value is an `int`. -/
theorem Built.eq_int_of_byValue (h : table.Built) (ht : table.Declarable type) {byReference : Bool}
    (hr : table.isArray type = true → byReference = true) (hv : byReference = false) : type = TypeId.int := by
  refine h.eq_int ht ?_
  cases ha : table.array? type with
  | none => rfl
  | some array =>
    rw [hr (by rw [isArray, ha]; rfl)] at hv
    cases hv

end SplLang.TypeTable
