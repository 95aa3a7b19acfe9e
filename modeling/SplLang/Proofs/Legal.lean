import Mathlib.Logic.Function.Basic
import SplLang.Proofs.Spelled

/-! Which declarations are legal and which tables are theirs, apart from how they are entered. Names of types
are followed from top to bottom with what they mean. -/
namespace SplLang

/-- Some names no longer mean a type. -/
def hide (names : List Name) (known : Name → Option Spelled) : Name → Option Spelled :=
  fun name => if name ∈ names then none else known name

/-- The type of a parameter has a meaning, and an array is passed by reference. -/
def Parameter.Legal (known : Name → Option Spelled) (parameter : Parameter) : Prop :=
  ∃ spelled, parameter.type.Means known spelled ∧ (parameter.byReference = false → spelled = .int)

/-- Parameters and locals have names of their own. A parameter or an earlier local hides the type of its name
from the types of the locals behind it, not from those of the parameters. -/
structure Procedure.Legal (known : Name → Option Spelled) (procedure : Procedure) : Prop where
  distinct : (procedure.parameters.map (·.name) ++ procedure.locals.map (·.name)).Nodup
  parameters : ∀ parameter ∈ procedure.parameters, parameter.Legal known
  locals : ∀ before declaration after, procedure.locals = before ++ declaration :: after → ∃ spelled,
    declaration.type.Means (hide (procedure.parameters.map (·.name) ++ before.map (·.name)) known) spelled

/-- Declarations from top to bottom, behind some that took the given names and made the given types known. -/
inductive LegalFrom : (Name → Option Spelled) → List Name → List Declaration → Prop where
  | nil {known : Name → Option Spelled} {taken : List Name} : LegalFrom known taken []
  | type {known : Name → Option Spelled} {taken : List Name} {declaration : TypeDeclaration} {spelled : Spelled}
      {rest : List Declaration} :
      declaration.name ∉ taken → declaration.type.Means known spelled →
        LegalFrom (Function.update known declaration.name (some spelled)) (taken ++ [declaration.name]) rest →
          LegalFrom known taken (.type declaration :: rest)
  | procedure {known : Name → Option Spelled} {taken : List Name} {procedure : Procedure} {rest : List Declaration} :
      procedure.name ∉ taken → procedure.Legal known → LegalFrom known (taken ++ [procedure.name]) rest →
        LegalFrom known taken (.procedure procedure :: rest)

/-- Of the predeclared names `int` is a type. -/
def predeclaredTypes : Name → Option Spelled := Function.update (fun _ => none) "int" (some .int)

def Program.Legal (program : Program) : Prop :=
  LegalFrom predeclaredTypes (predeclared.map (·.1)) program.declarations

/-- The signature is that of the procedure, its scope has the given number, and the types in it are those that the
procedure's type expressions denote. -/
structure Signature.Describes (sig : Signature) (types : TypeTable) (globals : Keyed Name Entry) (scope : ScopeId)
    (declared : Procedure) : Prop where
  procedure : sig.procedure = declared
  scope : sig.scope = scope
  parameters : sig.parameters.map (·.1) = declared.parameters
  locals : sig.locals.map (·.1) = declared.locals
  parameterTypes : ∀ p ∈ sig.parameters, p.1.type.Denotes types globals.at? p.2
  localTypes : ∀ l ∈ sig.locals, l.1.type.Denotes types globals.at? l.2

/-- What declarations add behind the given global entries: one entry for each of them, and for each procedure a
scope, numbered from the given one on. -/
inductive Tables (types : TypeTable) : Keyed Name Entry → ScopeId → List Declaration → Keyed Name Entry →
    List Signature → Prop where
  | nil {globals : Keyed Name Entry} {scope : ScopeId} : Tables types globals scope [] [] []
  | type {globals entries : Keyed Name Entry} {scope : ScopeId} {declaration : TypeDeclaration} {type : TypeId}
      {rest : List Declaration} {sigs : List Signature} :
      declaration.type.Denotes types globals.at? type →
        Tables types (globals ++ [(declaration.name, .type type)]) scope rest entries sigs →
          Tables types globals scope (.type declaration :: rest) ((declaration.name, .type type) :: entries) sigs
  | procedure {globals entries : Keyed Name Entry} {scope : ScopeId} {procedure : Procedure} {sig : Signature}
      {rest : List Declaration} {sigs : List Signature} :
      sig.Describes types globals scope procedure →
        Tables types (globals ++ [(procedure.name, .proc sig.entry)]) (scope + 1) rest entries sigs →
          Tables types globals scope (.procedure procedure :: rest) ((procedure.name, .proc sig.entry) :: entries)
            (sig :: sigs)

namespace TypeTable.Knows
variable {types : TypeTable} {known : Name → Option Spelled} {globals own : Keyed Name Entry}

/-- In a scope that holds variables only, their names hide types. -/
theorem hide (h : types.Knows globals.at? known) (hown : ∀ pair ∈ own, ∃ v, pair.2 = Entry.var v) :
    types.Knows (fun name => (own.at? name).or (globals.at? name)) (SplLang.hide (own.map (·.1)) known) where
  entry {name spelled} hk := by
    unfold SplLang.hide at hk
    split at hk
    · cases hk
    · next hn =>
      obtain ⟨type, he, hs⟩ := h.entry hk
      exact ⟨type, by rw [(Keyed.at?_eq_none_iff own name).mpr hn, Option.none_or, he], hs⟩
  spelled {name type} he := by
    unfold SplLang.hide
    cases hn : own.at? name with
    | none =>
      rw [hn, Option.none_or] at he
      rw [if_neg ((Keyed.at?_eq_none_iff own name).mp hn)]
      exact h.spelled he
    | some entry =>
      rw [hn, Option.some_or] at he
      obtain ⟨v, hv⟩ := hown _ (Keyed.mem_of_at? hn)
      rw [show entry = .var v from hv] at he
      cases he

theorem addType (h : types.Knows globals.at? known) {name : Name} {type : TypeId} {spelled : Spelled}
    (hn : globals.at? name = none) (hs : types.Spells type spelled) :
    types.Knows (globals ++ [(name, Entry.type type)]).at? (Function.update known name (some spelled)) where
  entry {other spelled'} hk := by
    rw [Keyed.at?_append, Keyed.at?_cons]
    by_cases ho : other = name
    · rw [ho, Function.update_self] at hk
      cases hk
      exact ⟨type, by rw [ho, hn, Option.none_or, if_pos rfl], hs⟩
    · rw [Function.update_of_ne ho] at hk
      obtain ⟨type', he, hs'⟩ := h.entry hk
      exact ⟨type', by rw [he, Option.some_or], hs'⟩
  spelled {other type'} he := by
    rw [Keyed.at?_append, Keyed.at?_cons, Keyed.at?_nil] at he
    by_cases ho : other = name
    · rw [ho, hn, Option.none_or, if_pos rfl] at he
      cases he
      exact ⟨spelled, by rw [ho, Function.update_self], hs⟩
    · rw [if_neg (Ne.symm ho), Option.or_none] at he
      rw [Function.update_of_ne ho]
      exact h.spelled he

theorem addProcedure (h : types.Knows globals.at? known) (name : Name) (entry : ProcedureEntry) :
    types.Knows (globals ++ [(name, Entry.proc entry)]).at? known where
  entry hk := by
    obtain ⟨type, he, hs⟩ := h.entry hk
    exact ⟨type, by rw [Keyed.at?_append, he, Option.some_or], hs⟩
  spelled {other type} he := by
    rw [Keyed.at?_append, Keyed.at?_cons, Keyed.at?_nil] at he
    rcases Option.or_eq_some_iff.mp he with he | ⟨_, he⟩
    · exact h.spelled he
    · split at he <;> cases he

end TypeTable.Knows

theorem predeclared_knows : TypeTable.primitives.Knows predeclared.at? predeclaredTypes where
  entry {name spelled} hk := by
    unfold predeclaredTypes at hk
    by_cases hn : name = "int"
    · rw [hn, Function.update_self] at hk
      cases hk
      exact ⟨TypeId.int, by rw [hn]; rfl, .int⟩
    · rw [Function.update_of_ne hn] at hk
      cases hk
  spelled {name type} he := by
    rcases List.mem_cons.mp (Keyed.mem_of_at? he) with hm | hm
    · cases hm
      exact ⟨.int, Function.update_self _ _ _, .int⟩
    · obtain ⟨_, _, hp⟩ := List.mem_map.mp hm
      cases hp

section
variable {known : Name → Option Spelled} {taken : List Name} {rest : List Declaration}

theorem legalFrom_type_iff {declaration : TypeDeclaration} : LegalFrom known taken (.type declaration :: rest) ↔
    ((∃ spelled, declaration.type.Means known spelled) ∧ declaration.name ∉ taken) ∧
      ∀ spelled, declaration.type.Means known spelled →
        LegalFrom (Function.update known declaration.name (some spelled)) (taken ++ [declaration.name]) rest := by
  rw [and_right_comm, ← TypeExpr.exists_means_and_iff]
  constructor
  · intro h
    cases h with
    | type hn hm hrest => exact ⟨⟨_, hm, hrest⟩, hn⟩
  · rintro ⟨⟨spelled, hm, hrest⟩, hn⟩
    exact .type hn hm hrest

theorem legalFrom_procedure_iff {procedure : Procedure} : LegalFrom known taken (.procedure procedure :: rest) ↔
    (procedure.Legal known ∧ procedure.name ∉ taken) ∧ LegalFrom known (taken ++ [procedure.name]) rest := by
  constructor
  · intro h
    cases h with
    | procedure hn hl hrest => exact ⟨⟨hl, hn⟩, hrest⟩
  · rintro ⟨⟨hl, hn⟩, hrest⟩
    exact .procedure hn hl hrest

end

theorem Signature.Describes.mono {sig : Signature} {types next : TypeTable} {globals : Keyed Name Entry}
    {scope : ScopeId} {procedure : Procedure} (h : sig.Describes types globals scope procedure) (hx : types.Extends next) :
    sig.Describes next globals scope procedure where
  procedure := h.procedure
  scope := h.scope
  parameters := h.parameters
  locals := h.locals
  parameterTypes p hp := (h.parameterTypes p hp).mono hx fun _ _ he => he
  localTypes l hl := (h.localTypes l hl).mono hx fun _ _ he => he

theorem Tables.procedures {types : TypeTable} {globals entries : Keyed Name Entry} {scope : ScopeId}
    {declarations : List Declaration} {sigs : List Signature}
    (h : Tables types globals scope declarations entries sigs) (position : Position) : sigs.map (·.procedure) = (Program.mk position declarations).procedures := by
  induction h with
  | nil => rfl
  | type _ _ ih => exact ih
  | procedure hd _ ih => exact congrArg₂ List.cons hd.procedure ih

/-- The scopes of the procedures are numbered in the order of their declaration. -/
theorem Tables.scope_eq {types : TypeTable} {globals entries : Keyed Name Entry} {scope : ScopeId}
    {declarations : List Declaration} {sigs : List Signature}
    (h : Tables types globals scope declarations entries sigs) {i : Nat} {sig : Signature} (hi : sigs[i]? = some sig) : sig.scope = i + scope := by
  induction h generalizing i with
  | nil => cases hi
  | type _ _ ih => exact ih hi
  | procedure hd _ ih =>
    cases i with
    | zero =>
      cases hi
      rw [hd.scope, Nat.zero_add]
    | succ i => rw [ih hi, Nat.succ_add_eq_add_succ]

end SplLang
