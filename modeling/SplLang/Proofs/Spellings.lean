import SplLang.Proofs.Alike
import SplLang.Proofs.Nominal

/-! What the type expressions of a program spell out. Where two programs declare their types alike, alike type
expressions have types that are spelled out the same way, whatever numbers the two tables give them. -/
namespace SplLang
open Phase

namespace TypeTable
variable {types types' : TypeTable} {type type' element element' : TypeId} {length length' : UInt32}

/-- The two types are spelled out the same way. -/
def SameType (types types' : TypeTable) (type type' : TypeId) : Prop :=
  ∃ spelled, types.Spells type spelled ∧ types'.Spells type' spelled

theorem SameType.byteSize_eq (h : SameType types types' type type') (hb : types.Built) (hb' : types'.Built) :
    types'.byteSize type' = types.byteSize type := by
  obtain ⟨spelled, hs, hs'⟩ := h
  rw [← UInt32.toNat_inj, hb.byteSize_of_spells hs, hb'.byteSize_of_spells hs']

theorem SameType.words_eq (h : SameType types types' type type') (hb : types.Built) (hb' : types'.Built) :
    types'.words type' = types.words type := by
  have hbytes : (types'.byteSize type').toNat = (types.byteSize type).toNat := congrArg _ (h.byteSize_eq hb hb')
  rw [hb.byteSize_eq, hb'.byteSize_eq] at hbytes
  omega

/-- The elements of array types that are the same are the same, too. -/
theorem SameType.array (h : SameType types types' type type') (hb : types.Built)
    (ha : types.array? type = some (element, length)) (ha' : types'.array? type' = some (element', length')) :
    length' = length ∧ SameType types types' element element' := by
  obtain ⟨spelled, hs, hs'⟩ := h
  cases hs with
  | int =>
    rw [hb.array?_primitive (by decide)] at ha
    cases ha
  | array hs he =>
    cases hs' with
    | array hs' he' =>
      rw [hs] at ha
      rw [hs'] at ha'
      cases ha
      cases ha'
      exact ⟨rfl, _, he, he'⟩

end TypeTable

/-- A type expression spelled out as the program declares the names of types. -/
inductive Program.Spells (program : Program) : TypeExpr → Spelled → Prop where
  | int {node : Node} : Spells program (.named node "int") .int
  | named {node : Node} {name : Name} {expr : TypeExpr} {spelled : Spelled} :
      ⟨none, name, expr⟩ ∈ program.typeSites → Spells program expr spelled → Spells program (.named node name) spelled
  | array {node : Node} {length : UInt32} {base : TypeExpr} {element : Spelled} :
      Spells program base element → Spells program (.array node length base) (.array length element)

/-- Each type that the first program declares is declared alike in the second. -/
def Program.TypesAlike (program program' : Program) : Prop :=
  ∀ name expr, ⟨none, name, expr⟩ ∈ program.typeSites →
    ∃ expr', expr.Alike expr' ∧ ⟨none, name, expr'⟩ ∈ program'.typeSites

section
variable {program program' : Program} {context context' : Context} {expr expr' : TypeExpr} {spelled spelled' : Spelled}
  {typed : List (TypeSite × TypeId)}

private theorem Program.Given.spells_unique (h : program.Given context typed) (hs : program.Spells expr spelled)
    (hs' : program.Spells expr spelled') : spelled = spelled' := by
  have hint : ∀ {expr}, ⟨none, "int", expr⟩ ∉ program.typeSites := by
    intro expr hm
    obtain ⟨i, hi⟩ := List.mem_iff_getElem?.mp hm
    exact h.not_int hi
  induction hs generalizing spelled' with
  | int =>
    cases hs' with
    | int => rfl
    | named hm => exact absurd hm hint
  | named hm _ ih =>
    cases hs' with
    | int => exact absurd hm hint
    | named hm' hs' =>
      obtain ⟨i, hi⟩ := List.mem_iff_getElem?.mp hm
      obtain ⟨j, hj⟩ := List.mem_iff_getElem?.mp hm'
      cases h.site_unique hi hj
      rw [hi] at hj
      cases hj
      exact ih hs'
  | array _ ih =>
    cases hs' with
    | array hs' => rw [ih hs']

/-- The type of a use of a type expression is spelled as the program spells the expression. -/
theorem Program.Given.spells (h : program.Given context typed) {o : Occurrence} {type : TypeId}
    (he : program.typeExpr? o = some expr) (ht : program.typeAt? context o = some type) :
    ∃ spelled, program.Spells expr spelled ∧ context.types.Spells type spelled := by
  obtain ⟨i, depth⟩ := o
  -- Names lead to earlier sites, and the base of an array type stands in the same one.
  induction i using Nat.strongRecOn generalizing depth expr type with
  | _ i ih =>
  induction expr generalizing depth type with
  | named node name =>
    rcases h.known (h.takes he ht) with ⟨rfl, rfl⟩ | ⟨j, expr, hlt, hs, ht'⟩
    · exact ⟨.int, .int, .int⟩
    · obtain ⟨spelled, hspells, htable⟩ := ih j hlt 0 (Program.typeExpr?_of_site hs) ht'
      exact ⟨spelled, .named (List.mem_of_getElem? hs) hspells, htable⟩
  | array node length base ihbase =>
    obtain ⟨_, element, ha, _⟩ := h.takes he ht
    obtain ⟨hbase, htbase⟩ := h.base_type he ht ha
    obtain ⟨spelled, hspells, htable⟩ := ihbase _ hbase htbase
    exact ⟨.array length spelled, .array hspells, .array ha htable⟩

/-- Type expressions that are alike are spelled the same where types are declared alike. -/
theorem Program.Spells.alike (hd : program.TypesAlike program') (h : program.Spells expr spelled)
    (ha : expr.Alike expr') : program'.Spells expr' spelled := by
  induction h generalizing expr' with
  | int =>
    cases ha with
    | named => exact .int
  | named hm _ ih =>
    cases ha with
    | named =>
      obtain ⟨declared, halike, hm'⟩ := hd _ _ hm
      exact .named hm' (ih halike)
  | array _ ih =>
    cases ha with
    | array hb => exact .array (ih hb)

end

section
variable {program program' : Program} {name : Name} {expr : TypeExpr}

private theorem Program.mem_typeSites_type : ⟨none, name, expr⟩ ∈ program.typeSites ↔
    ∃ position, .type ⟨position, name, expr⟩ ∈ program.declarations := by
  rw [typeSites, List.mem_flatMap]
  constructor
  · rintro ⟨declaration, hd, hs⟩
    cases declaration with
    | type declaration =>
      cases List.mem_singleton.mp hs
      exact ⟨declaration.position, hd⟩
    | procedure procedure =>
      rcases List.mem_append.mp hs with hs | hs
      · obtain ⟨_, _, he⟩ := List.mem_map.mp hs
        cases he
      · obtain ⟨_, _, he⟩ := List.mem_map.mp hs
        cases he
  · rintro ⟨position, hd⟩
    exact ⟨_, hd, List.mem_singleton_self _⟩

/-- A change of a body leaves the declarations of types alike. -/
theorem Program.BodyChange.declared (change : program.BodyChange program') : program.TypesAlike program' := by
  intro name expr h
  obtain ⟨position, hd⟩ := Program.mem_typeSites_type.mp h
  rw [change.split] at hd
  obtain ⟨declaration', hd', ha⟩ : ∃ declaration' ∈ program'.declarations,
      Declaration.Alike (.type ⟨position, name, expr⟩) declaration' := by
    rw [change.split']
    rcases List.mem_append.mp hd with hd | hd
    · obtain ⟨declaration', hd', ha⟩ := forall₂_exists_of_mem change.before_alike hd
      exact ⟨declaration', List.mem_append_left _ hd', ha⟩
    · rcases List.mem_cons.mp hd with he | hd
      · cases he
      · obtain ⟨declaration', hd', ha⟩ := forall₂_exists_of_mem change.after_alike hd
        exact ⟨declaration', List.mem_append_right _ (List.mem_cons_of_mem _ hd'), ha⟩
  cases ha with
  | type ht => exact ⟨_, ht, Program.mem_typeSites_type.mpr ⟨_, hd'⟩⟩

end

/-- A program whose declarations are entered, with its signatures. -/
structure Program.Declares (program : Program) (context : Context) (sigs : List Signature) : Prop where
  procedures : sigs.map (·.procedure) = program.procedures
  declared : Declared context sigs
  given : ∃ typed, program.Given context typed

theorem Program.declares {program : Program} {count : DeclarationCount} {finish : Progress}
    (hr : program.declare.run .initial = .ok count finish) : ∃ sigs, program.Declares finish.context sigs := by
  obtain ⟨sigs, hsigs, hd⟩ := Program.declare_ok hr
  exact ⟨sigs, hsigs, hd, Program.declare_given hr⟩

namespace Program.Declares
variable {program program' : Program} {context context' : Context} {sigs sigs' : List Signature}
  {sig sig' : Signature} {p p' : TypeSite × TypeId}

/-- The type of a parameter or local is spelled as the program spells its type expression. -/
theorem spells (h : program.Declares context sigs) (hs : sig ∈ sigs) (hp : p ∈ sig.typed) :
    ∃ spelled, program.Spells p.1.type spelled ∧ context.types.Spells p.2 spelled := by
  obtain ⟨_, hgiven⟩ := h.given
  obtain ⟨i, hi, htype⟩ := h.declared.exists_site h.procedures hs hp
  exact hgiven.spells (Program.typeExpr?_of_site hi) htype

/-- Parameters and locals whose type expressions are alike have the same type. -/
theorem sameType (h : program.Declares context sigs) (h' : program'.Declares context' sigs')
    (hd : program.TypesAlike program') (hs : sig ∈ sigs) (hs' : sig' ∈ sigs') (hp : p ∈ sig.typed)
    (hp' : p' ∈ sig'.typed) (ha : p.1.type.Alike p'.1.type) : context.types.SameType context'.types p.2 p'.2 := by
  obtain ⟨spelled, hspells, htable⟩ := h.spells hs hp
  obtain ⟨spelled', hspells', htable'⟩ := h'.spells hs' hp'
  obtain ⟨_, hgiven⟩ := h'.given
  cases hgiven.spells_unique hspells' (hspells.alike hd ha)
  exact ⟨spelled, htable, htable'⟩

end Program.Declares

/-- A program whose frames are laid out, with its signatures. -/
structure Program.Laid (program : Program) (context : Context) (sigs : List Signature)
    (area : Signature → OutgoingArea) : Prop where
  declares : ∃ start, program.Declares start sigs ∧ context.types = start.types
  prepared : Prepared context sigs area

theorem Program.Laid.procedures {program : Program} {context : Context} {sigs : List Signature}
    {area : Signature → OutgoingArea} (h : program.Laid context sigs area) :
    sigs.map (·.procedure) = program.procedures := by
  obtain ⟨_, hd, _⟩ := h.declares
  exact hd.procedures

/-- A program that was compiled, with its signatures. -/
structure Program.Compiled (program : Program) (context : Context) (assembly : Machine.Assembly) (sigs : List Signature)
    (area : Signature → OutgoingArea) : Prop extends program.Laid context sigs area where
  recorded : ∃ found, Recorded context sigs found
  code : ∃ supply, (program.code context).Gives supply assembly

theorem compile_compiled {program : Program} {c : Compilation} {assembly : Machine.Assembly}
    (h : (compile program .generated).1 = .ok c) (ha : c.assembly = some assembly) :
    ∃ sigs area, program.Compiled c.context assembly sigs area := by
  obtain ⟨_, declared, hd, htypes, sigs, area, found, supply, hsigs, hdeclared, hprepared, hrecorded, hcode⟩ :=
    compile_declared h ha
  have hgiven := Program.declare_given hd
  exact ⟨sigs, area, ⟨⟨_, ⟨hsigs, hdeclared, hgiven⟩, htypes⟩, hprepared⟩, ⟨found, hrecorded⟩, supply, hcode⟩

end SplLang
