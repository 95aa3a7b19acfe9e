import Mathlib.Algebra.BigOperators.Group.List.Basic
import SplLang.Proofs.Sizes
import SplLang.Proofs.Steps

/-! Array types on request. Whatever was asked before, sizes are the exact products of the lengths, and
a type that has been handed out keeps its definition, its size and its text. -/
namespace SplLang
namespace TypeTable

/-- An array type that is asked for. -/
structure Request where
  element : TypeId
  length : UInt32

/-- The answer to a request and the table behind it, which a refused request does not change. -/
def ask (table : TypeTable) (request : Request) : Option TypeId × TypeTable :=
  match table.addArray? request.element request.length with
  | some (type, next) => (some type, next)
  | none => (none, table)

/-- The types that are known after these answers, the last answer first. -/
def handedOut (answers : List (Option TypeId)) : List TypeId :=
  answers.filterMap id ++ [TypeId.boolean, TypeId.int]

/-- The table behind requests for arrays of types that were handed out, with the answers, the last one first. -/
inductive Answered : List (Option TypeId) → TypeTable → Prop where
  | primitives : Answered [] .primitives
  | ask {answers : List (Option TypeId)} {table : TypeTable} (request : Request) :
      Answered answers table → request.element ∈ handedOut answers →
        Answered ((table.ask request).1 :: answers) (table.ask request).2

/-- Bytes of a primitive within arrays of the given lengths, without any bound. -/
def exactBytes (lengths : List UInt32) : Nat := (lengths.map (·.toNat)).prod * 4

/-- A primitive within arrays of the given lengths, spelled out. -/
def spelledOut (lengths : List UInt32) (kind : Primitive) : String :=
  lengths.foldr (fun length element => s!"array [{length.toNat}] of " ++ element) kind.text

/-- What can be relied on: the types are those handed out, each lies over a primitive, sizes and texts are those
of the lengths on the way, no size is cut off, and what is answered next changes nothing about them. -/
structure Truthful (answers : List (Option TypeId)) (table : TypeTable) : Prop where
  known : ∀ {type}, type ∈ handedOut answers ↔ type < table.count
  older : table.Descending
  ends : ∀ {type}, type ∈ handedOut answers → ∃ lengths kind, table.Unfolds type lengths kind
  byteSize : ∀ {type lengths kind}, table.Unfolds type lengths kind →
    (table.byteSize type).toNat = exactBytes lengths
  text : ∀ {type lengths kind}, table.Unfolds type lengths kind → table.text type = spelledOut lengths kind
  uncut : ∀ {type element length}, table.def? type = some (.array element length) →
    length.toNat * (table.byteSize element).toNat < 2^32
  refuses : ∀ {request lengths kind}, table.Unfolds request.element lengths kind →
    ((table.ask request).1 = none ↔ 2^32 ≤ request.length.toNat * exactBytes lengths)
  refused : ∀ {request}, (table.ask request).1 = none → (table.ask request).2 = table
  fresh : ∀ {request type}, (table.ask request).1 = some type → type ∉ handedOut answers
  entered : ∀ {request type}, (table.ask request).1 = some type →
    (table.ask request).2.def? type = some (.array request.element request.length)
  keeps : ∀ {request type}, type ∈ handedOut answers →
    (table.ask request).2.def? type = table.def? type ∧
      (table.ask request).2.byteSize type = table.byteSize type ∧ (table.ask request).2.text type = table.text type

section Ask
variable {table next : TypeTable} {request : Request} {type : TypeId}

private theorem ask_of_some (h : table.addArray? request.element request.length = some (type, next)) :
    table.ask request = (some type, next) := by
  rw [ask, h]

private theorem ask_of_none (h : table.addArray? request.element request.length = none) :
    table.ask request = (none, table) := by
  rw [ask, h]

private theorem addArray?_of_ask (h : (table.ask request).1 = some type) :
    table.addArray? request.element request.length = some (type, (table.ask request).2) := by
  cases ha : table.addArray? request.element request.length with
  | none =>
    rw [ask_of_none ha] at h
    cases h
  | some added =>
    rw [ask_of_some ha] at h ⊢
    cases h
    rfl

private theorem ask_eq_none_iff :
    (table.ask request).1 = none ↔ table.addArray? request.element request.length = none := by
  cases ha : table.addArray? request.element request.length with
  | none => simp [ask_of_none ha]
  | some added => simp [ask_of_some ha]

private theorem extends_ask (table : TypeTable) (request : Request) : table.Extends (table.ask request).2 := by
  cases ha : table.addArray? request.element request.length with
  | none =>
    rw [ask_of_none ha]
    exact .refl table
  | some added =>
    rw [ask_of_some ha]
    exact extends_of_addArray? ha

end Ask

namespace Founded
variable {table : TypeTable} {type : TypeId} {lengths : List UInt32} {kind : Primitive}

private theorem byteSize_of_unfolds (h : table.Founded) (hu : table.Unfolds type lengths kind) :
    (table.byteSize type).toNat = exactBytes lengths := by
  induction hu with
  | primitive hd =>
    rw [byteSize, byteSizeIn_eq_foldIn, foldIn_primitive hd]
    rfl
  | array hd _ ih =>
    rw [h.byteSize_array hd, ih, exactBytes, exactBytes, List.map_cons, List.prod_cons, Nat.mul_assoc]

private theorem text_of_unfolds (h : table.Founded) (hu : table.Unfolds type lengths kind) :
    table.text type = spelledOut lengths kind := by
  rw [text, textIn_eq_foldIn, h.descending.foldIn_eq hu]
  rfl

end Founded

namespace Answered
variable {answers : List (Option TypeId)} {table : TypeTable}

private theorem known (h : Answered answers table) {type : TypeId} : type ∈ handedOut answers ↔ type < table.count := by
  induction h with
  | primitives =>
    show type ∈ [1, 0] ↔ type < 2
    simp only [List.mem_cons, List.not_mem_nil, or_false]
    exact ⟨by rintro (rfl | rfl) <;> decide, fun h => (Nat.lt_succ_iff_lt_or_eq.mp h).symm.imp_right Nat.lt_one_iff.mp⟩
  | @ask answers table request _ _ ih =>
    cases ha : table.addArray? request.element request.length with
    | none =>
      rw [ask_of_none ha]
      exact ih
    | some added =>
      obtain ⟨new, next⟩ := added
      rw [ask_of_some ha]
      obtain ⟨rfl, rfl, -⟩ := addArray?_eq_some ha
      show type ∈ table.count :: handedOut answers ↔ type < table.count + 1
      rw [List.mem_cons, ih, Nat.lt_succ_iff_lt_or_eq, or_comm]

private theorem founded (h : Answered answers table) : table.Founded := by
  induction h with
  | primitives => exact .primitives
  | @ask answers table request ht hr ih =>
    cases ha : table.addArray? request.element request.length with
    | none =>
      rw [ask_of_none ha]
      exact ih
    | some added =>
      rw [ask_of_some ha]
      exact ih.add (ht.known.mp hr) ha

/-- A table never lies about sizes, whatever it has been asked for. -/
theorem truthful (h : Answered answers table) : Truthful answers table where
  known := h.known
  older := h.founded.descending
  ends ht := h.founded.descending.unfolds (h.known.mp ht)
  byteSize hu := h.founded.byteSize_of_unfolds hu
  text hu := h.founded.text_of_unfolds hu
  uncut hd := h.founded.fits hd
  refuses hu := by rw [ask_eq_none_iff, addArray?_eq_none_iff, h.founded.byteSize_of_unfolds hu]
  refused hn := by rw [ask_of_none (ask_eq_none_iff.mp hn)]
  fresh hs := by
    obtain ⟨rfl, -, -⟩ := addArray?_eq_some (addArray?_of_ask hs)
    exact fun hm => Nat.lt_irrefl _ (h.known.mp hm)
  entered {request type} hs := by
    obtain ⟨rfl, hn, -⟩ := addArray?_eq_some (addArray?_of_ask hs)
    rw [hn]
    exact Numbered.at?_cons_self _ _
  keeps {request type} ht := by
    have hx := extends_ask table request
    have hc := h.known.mp ht
    exact ⟨hx.def? hc, hx.byteSize hc, hx.text hc⟩

end Answered

/-- An array without elements lets the array around it be as long as can be written. -/
def emptyRows : TypeTable :=
  ⟨[.array 2 4294967295, .array TypeId.int 0, .primitive .boolean, .primitive .int]⟩

private theorem emptyRows_answered : Answered [none, some 3, some 2] emptyRows := by
  have hrow : TypeTable.primitives.ask ⟨TypeId.int, 0⟩ =
      (some 2, ⟨[.array TypeId.int 0, .primitive .boolean, .primitive .int]⟩) := by decide
  have hrows : TypeTable.ask ⟨[.array TypeId.int 0, .primitive .boolean, .primitive .int]⟩ ⟨2, 4294967295⟩ =
      (some 3, emptyRows) := by decide
  have hlarge : emptyRows.ask ⟨TypeId.int, 1073741824⟩ = (none, emptyRows) := by decide
  have h := Answered.primitives.ask ⟨TypeId.int, 0⟩ (by decide)
  rw [hrow] at h
  have h := h.ask ⟨2, 4294967295⟩ (by decide)
  rw [hrows] at h
  have h := h.ask ⟨TypeId.int, 1073741824⟩ (by decide)
  rwa [hlarge] at h

theorem emptyRows_truthful : Answered [none, some 3, some 2] emptyRows ∧ Truthful [none, some 3, some 2] emptyRows :=
  ⟨emptyRows_answered, emptyRows_answered.truthful⟩

/-- The tables of a compilation are such tables. -/
theorem Built.answered {table : TypeTable} (h : table.Built) : ∃ answers, Answered answers table := by
  induction h with
  | primitives => exact ⟨[], .primitives⟩
  | @add table next element type length _ hd ha ih =>
    obtain ⟨answers, ht⟩ := ih
    have hs := ht.ask ⟨element, length⟩ (ht.known.mpr hd.1)
    rw [ask_of_some ha] at hs
    exact ⟨_, hs⟩

end TypeTable

/-- In a compilation the table that has been built so far is asked. -/
theorem Phase.addArray_runFrom (position : Position) (request : TypeTable.Request) (start : Progress) :
    (Phase.addArray position request.element request.length).runFrom start =
      ((start.context.types.ask request).1.elim (.error ⟨position, .typeTooLarge⟩) .ok,
        { start with context := { start.context with types := (start.context.types.ask request).2 } }) := by
  unfold runFrom Phase.addArray
  rw [run_context_bind, EStateM.run_bind]
  cases ha : start.context.types.addArray? request.element request.length with
  | none =>
    rw [TypeTable.ask_of_none ha]
    rfl
  | some added =>
    rw [TypeTable.ask_of_some ha]
    rfl

end SplLang
