import SplLang.Proofs.Declared

/-! Types spelled out down to their primitive, with their exact sizes. A type expression has a
meaning of this kind exactly if resolving it succeeds, and what the table then holds spells it. -/
namespace SplLang

/-- A type spelled out down to its primitive. -/
inductive Spelled where
  | int
  | array (length : UInt32) (element : Spelled)

/-- Bytes of a value, without any bound. -/
def Spelled.byteSize : Spelled → Nat
  | .int => 4
  | .array length element => length.toNat * element.byteSize

/-- What a type expression means where names mean the given types. An array type, an inner one
too, must have a size below 2^32. -/
inductive TypeExpr.Means (known : Name → Option Spelled) : TypeExpr → Spelled → Prop where
  | named {node : Node} {name : Name} {spelled : Spelled} :
      known name = some spelled → Means known (.named node name) spelled
  | array {node : Node} {length : UInt32} {base : TypeExpr} {element : Spelled} :
      Means known base element → (Spelled.array length element).byteSize < 2^32 →
        Means known (.array node length base) (.array length element)

/-- The type that the tables hold for a type expression. -/
def TypeExpr.Denotes (types : TypeTable) (entries : Name → Option Entry) : TypeExpr → TypeId → Prop
  | .named _ name, type => entries name = some (.type type)
  | .array _ length base, type => ∃ element, types.array? type = some (element, length) ∧
      base.Denotes types entries element

theorem TypeExpr.Means.unique {known : Name → Option Spelled} {expr : TypeExpr} {spelled other : Spelled}
    (h : expr.Means known spelled) (h' : expr.Means known other) : spelled = other := by
  induction h generalizing other with
  | named hn =>
    cases h' with
    | named hn' => exact Option.some.inj (hn.symm.trans hn')
  | array _ _ ih =>
    cases h' with
    | array hb _ => rw [ih hb]

/-- What holds of every meaning holds of the only one. -/
theorem TypeExpr.Means.forall_iff {known : Name → Option Spelled} {expr : TypeExpr} {spelled : Spelled}
    (h : expr.Means known spelled) {P : Spelled → Prop} :
    (∀ other, expr.Means known other → P other) ↔ P spelled := by
  constructor
  · intro hall
    exact hall spelled h
  · intro hp other ho
    rw [ho.unique h]
    exact hp

/-- What holds of some meaning holds of the only one. -/
theorem TypeExpr.Means.exists_iff {known : Name → Option Spelled} {expr : TypeExpr} {spelled : Spelled}
    (h : expr.Means known spelled) {P : Spelled → Prop} : (∃ other, expr.Means known other ∧ P other) ↔ P spelled := by
  constructor
  · rintro ⟨other, ho, hp⟩
    rw [h.unique ho]
    exact hp
  · exact fun hp => ⟨spelled, h, hp⟩

theorem TypeExpr.exists_means_and_iff {known : Name → Option Spelled} {expr : TypeExpr} {P : Spelled → Prop} :
    (∃ spelled, expr.Means known spelled ∧ P spelled) ↔
      (∃ spelled, expr.Means known spelled) ∧ ∀ spelled, expr.Means known spelled → P spelled := by
  constructor
  · rintro ⟨spelled, h, hp⟩
    exact ⟨⟨spelled, h⟩, h.forall_iff.mpr hp⟩
  · rintro ⟨⟨spelled, h⟩, hall⟩
    exact ⟨spelled, h, hall spelled h⟩

theorem TypeExpr.exists_means_array_iff {known : Name → Option Spelled} {node : Node} {length : UInt32}
    {base : TypeExpr} :
    (∃ spelled, (TypeExpr.array node length base).Means known spelled) ↔
      ∃ element, base.Means known element ∧ (Spelled.array length element).byteSize < 2^32 := by
  constructor
  · rintro ⟨_, h⟩
    cases h with
    | array hm hlt => exact ⟨_, hm, hlt⟩
  · rintro ⟨element, hm, hlt⟩
    exact ⟨_, .array hm hlt⟩

namespace TypeTable
variable {table next : TypeTable} {type : TypeId} {spelled : Spelled}

/-- A type of the table, spelled out. -/
inductive Spells (table : TypeTable) : TypeId → Spelled → Prop where
  | int : Spells table TypeId.int .int
  | array {type element : TypeId} {length : UInt32} {spelled : Spelled} :
      table.array? type = some (element, length) → Spells table element spelled →
        Spells table type (.array length spelled)

theorem lt_count_of_array? {element : TypeId} {length : UInt32} (h : table.array? type = some (element, length)) :
    type < table.count :=
  Numbered.lt_of_at? (array?_eq_some.mp h)

theorem Spells.mono (h : table.Spells type spelled) (hx : table.Extends next) : next.Spells type spelled := by
  induction h with
  | int => exact .int
  | array ha _ ih => exact .array ((hx.array? (lt_count_of_array? ha)).trans ha) ih

private theorem Built.extends_primitives (h : table.Built) : TypeTable.primitives.Extends table := by
  induction h with
  | primitives => exact .refl _
  | add _ _ ha ih => exact ih.trans (extends_of_addArray? ha)

/-- Neither primitive is an array type. -/
theorem Built.array?_primitive (h : table.Built) (ht : type < TypeTable.primitives.count) :
    table.array? type = none := by
  rw [h.extends_primitives.array? ht]
  have hcases : ∀ t, t < 2 → TypeTable.primitives.array? t = none := by decide
  exact hcases type ht

theorem Built.declarable_of_spells (h : table.Built) (hs : table.Spells type spelled) : table.Declarable type := by
  cases hs with
  | int => exact h.declarable_int
  | array ha =>
    refine ⟨lt_count_of_array? ha, ?_⟩
    rintro rfl
    rw [h.array?_primitive (by decide)] at ha
    cases ha

/-- The size in the table is the exact one. -/
theorem Built.byteSize_of_spells (h : table.Built) (hs : table.Spells type spelled) :
    (table.byteSize type).toNat = spelled.byteSize := by
  induction hs with
  | int => rw [h.byteSize_eq, h.words_int, Spelled.byteSize]
  | array ha _ ih => rw [h.byteSize_array ha, Spelled.byteSize, ih]

theorem Built.isArray_of_spells (h : table.Built) (hs : table.Spells type spelled) :
    table.isArray type = false ↔ spelled = .int := by
  cases hs with
  | int =>
    have ha : table.array? TypeId.int = none := h.array?_primitive (by decide)
    simp [isArray, ha]
  | array ha => simp [isArray, ha]

end TypeTable

theorem TypeExpr.Denotes.mono {types next : TypeTable} {entries others : Name → Option Entry}
    (hx : types.Extends next) (he : ∀ name type, entries name = some (.type type) → others name = some (.type type)) {expr : TypeExpr}
    {type : TypeId} (h : expr.Denotes types entries type) : expr.Denotes next others type := by
  induction expr generalizing type with
  | named node name => exact he name type h
  | array node length base ih =>
    obtain ⟨element, ha, hb⟩ := h
    exact ⟨element, (hx.array? (TypeTable.lt_count_of_array? ha)).trans ha, ih hb⟩

/-- Of the entries the types are known, each spelled out. -/
structure TypeTable.Knows (types : TypeTable) (entries : Name → Option Entry) (known : Name → Option Spelled) :
    Prop where
  entry : ∀ {name spelled}, known name = some spelled →
    ∃ type, entries name = some (.type type) ∧ types.Spells type spelled
  spelled : ∀ {name type}, entries name = some (.type type) →
    ∃ spelled, known name = some spelled ∧ types.Spells type spelled

theorem TypeTable.Knows.mono {types next : TypeTable} {entries : Name → Option Entry} {known : Name → Option Spelled}
    (h : types.Knows entries known) (hx : types.Extends next) : next.Knows entries known where
  entry hk := by
    obtain ⟨type, he, hs⟩ := h.entry hk
    exact ⟨type, he, hs.mono hx⟩
  spelled he := by
    obtain ⟨spelled, hk, hs⟩ := h.spelled he
    exact ⟨spelled, hk, hs.mono hx⟩

end SplLang
