import SplLang.TypeTable
import SplLang.Proofs.Scopes

/-! What the definitions tell of a type on the way down to its primitive. Where every array type
lies over an older type the way down ends, and newer types change nothing on it. -/
namespace SplLang.TypeTable

/-- A value for a type, from its primitive outward. -/
def foldIn {β : Type} (missing : β) (primitive : Primitive → β) (array : UInt32 → β → β) :
    List TypeDef → TypeId → β
  | [], _ => missing
  | newest :: older, type =>
    if type = older.length then
      match newest with
      | .primitive kind => primitive kind
      | .array element length => array length (foldIn missing primitive array older element)
    else foldIn missing primitive array older type

theorem byteSizeIn_eq_foldIn (defs : List TypeDef) (type : TypeId) :
    byteSizeIn defs type = foldIn 0 (fun _ => wordSize) Word.saturatingMul defs type := by
  induction defs generalizing type with
  | nil => rfl
  | cons newest older ih => cases newest <;> simp only [byteSizeIn, foldIn, ih]

theorem textIn_eq_foldIn (defs : List TypeDef) (type : TypeId) :
    textIn defs type =
      foldIn "" Primitive.text (fun length element => s!"array [{length.toNat}] of " ++ element) defs type := by
  induction defs generalizing type with
  | nil => rfl
  | cons newest older ih => cases newest <;> simp only [textIn, foldIn, ih]

section Fold
variable {β : Type} {missing : β} {primitive : Primitive → β} {array : UInt32 → β → β}
variable {defs : List TypeDef} {type element : TypeId} {length : UInt32}

private theorem foldIn_cons_of_ne (newest : TypeDef) (h : type ≠ defs.length) :
    foldIn missing primitive array (newest :: defs) type = foldIn missing primitive array defs type :=
  if_neg h

/-- Newer types do not matter. -/
theorem foldIn_append (newer : List TypeDef) (h : type < defs.length) :
    foldIn missing primitive array (newer ++ defs) type = foldIn missing primitive array defs type := by
  induction newer with
  | nil => rfl
  | cons newest newer ih =>
    have hlt : type < (newer ++ defs).length := Nat.lt_of_lt_of_le h (List.length_append ▸ Nat.le_add_left _ _)
    rw [List.cons_append, foldIn_cons_of_ne _ (Nat.ne_of_lt hlt), ih]

/-- A type stands in front of the older ones. -/
theorem exists_foldIn_eq (missing : β) (primitive : Primitive → β) (array : UInt32 → β → β) {d : TypeDef}
    (h : Numbered.at? defs type = some d) :
    ∃ newer older, defs = newer ++ d :: older ∧ type = older.length ∧
      foldIn missing primitive array defs type = foldIn missing primitive array (d :: older) older.length := by
  induction defs with
  | nil => cases h
  | cons newest older ih =>
    by_cases hs : type = older.length
    · subst hs
      rw [Numbered.at?_cons_self] at h
      cases h
      exact ⟨[], older, rfl, rfl, rfl⟩
    · rw [Numbered.at?_cons_of_ne hs] at h
      obtain ⟨newer, oldest, rfl, ht, hf⟩ := ih h
      exact ⟨newest :: newer, oldest, rfl, ht, (foldIn_cons_of_ne newest hs).trans hf⟩

theorem foldIn_missing (h : Numbered.at? defs type = none) :
    foldIn missing primitive array defs type = missing := by
  induction defs with
  | nil => rfl
  | cons newest older ih =>
    have hs : type ≠ older.length := by
      rintro rfl
      rw [Numbered.at?_cons_self] at h
      cases h
    rw [Numbered.at?_cons_of_ne hs] at h
    rw [foldIn_cons_of_ne _ hs, ih h]

theorem foldIn_primitive {kind : Primitive} (h : Numbered.at? defs type = some (.primitive kind)) :
    foldIn missing primitive array defs type = primitive kind := by
  obtain ⟨_, older, -, -, hf⟩ := exists_foldIn_eq missing primitive array h
  exact hf.trans (if_pos rfl)

theorem foldIn_array (h : Numbered.at? defs type = some (.array element length)) (hlt : element < type) :
    foldIn missing primitive array defs type = array length (foldIn missing primitive array defs element) := by
  obtain ⟨newer, older, hd, ht, hf⟩ := exists_foldIn_eq missing primitive array h
  have helement : foldIn missing primitive array defs element = foldIn missing primitive array older element := by
    rw [hd, List.append_cons, foldIn_append _ (ht ▸ hlt)]
  rw [helement]
  exact hf.trans (if_pos rfl)

end Fold

/-- The type lies over a primitive with arrays of the given lengths around it, the outermost first. -/
inductive Unfolds (table : TypeTable) : TypeId → List UInt32 → Primitive → Prop where
  | primitive {type : TypeId} {kind : Primitive} :
      table.def? type = some (.primitive kind) → Unfolds table type [] kind
  | array {type element : TypeId} {length : UInt32} {lengths : List UInt32} {kind : Primitive} :
      table.def? type = some (.array element length) → Unfolds table element lengths kind →
        Unfolds table type (length :: lengths) kind

/-- Every array type lies over an older type. -/
def Descending (table : TypeTable) : Prop :=
  ∀ ⦃type element : TypeId⦄ ⦃length : UInt32⦄, table.def? type = some (.array element length) → element < type

namespace Descending
variable {table : TypeTable} {type : TypeId}

/-- The way down from a type of the table ends at a primitive. -/
theorem unfolds (h : table.Descending) (ht : type < table.count) :
    ∃ lengths kind, table.Unfolds type lengths kind := by
  induction type using Nat.strongRecOn with
  | ind type ih =>
    obtain ⟨d, hd⟩ := Option.isSome_iff_exists.mp ((Numbered.at?_isSome_iff _ _).mpr ht)
    cases d with
    | primitive kind => exact ⟨[], kind, .primitive hd⟩
    | array element length =>
      obtain ⟨lengths, kind, hu⟩ := ih element (h hd) (Nat.lt_trans (h hd) ht)
      exact ⟨length :: lengths, kind, .array hd hu⟩

theorem foldIn_eq {β : Type} {missing : β} {primitive : Primitive → β} {array : UInt32 → β → β}
    {lengths : List UInt32} {kind : Primitive} (h : table.Descending) (hu : table.Unfolds type lengths kind) :
    foldIn missing primitive array table.newestFirst type = lengths.foldr array (primitive kind) := by
  induction hu with
  | primitive hd => exact foldIn_primitive hd
  | array hd _ ih => rw [foldIn_array hd (h hd), ih, List.foldr_cons]

end Descending
end SplLang.TypeTable
