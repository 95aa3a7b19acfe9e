import SplLang.Proofs.Origins
import SplLang.Proofs.Registering
import SplLang.Proofs.Stopping

/-! What is remembered for the numbered nodes of a checked program. If no number occurs twice, every type expression
and every node of a body has its own type remembered, and nothing else is remembered. -/
namespace SplLang
open Phase

/-- The type expressions of a program, one for each place where one is written. -/
def Program.typeExprs (program : Program) : List TypeExpr := program.typeSites.flatMap (·.type.parts)

/-- The variables and expressions in the bodies of a program, one for each place. -/
def Program.bodyNodes (program : Program) : List TreeNode :=
  program.procedures.flatMap fun procedure => allNodes procedure.body

/-- The types of the type expressions, and of nothing else, are remembered. -/
structure Program.TypeExprsAnnotated (program : Program) (context : Context) : Prop where
  /-- A type expression has the type that was found for it where it stands. -/
  own : ∀ o expr, program.typeExpr? o = some expr → ∃ type, program.typeAt? context o = some type ∧
    context.findings.typeExprs.at? expr.node.id = some type
  only : ∀ id, (context.findings.typeExprs.at? id).isSome ↔ ∃ expr ∈ program.typeExprs, expr.node.id = id
  /-- A name has the type declared with it before, or is the predeclared one. -/
  named : ∀ o node name type, program.typeExpr? o = some (.named node name) →
    context.findings.typeExprs.at? node.id = some type → name = "int" ∧ type = TypeId.int ∨
      ∃ i expr, i < o.site ∧ program.typeSites[i]? = some ⟨none, name, expr⟩ ∧
        context.findings.typeExprs.at? expr.node.id = some type
  /-- An array type has elements of the type of its base. -/
  array : ∀ o node length base type, program.typeExpr? o = some (.array node length base) →
    context.findings.typeExprs.at? node.id = some type → ∃ element,
      context.types.array? type = some (element, length) ∧
      context.findings.typeExprs.at? base.node.id = some element
  count : context.findings.typeExprs.length = program.typeExprs.length

/-- The types of the nodes of the bodies, and of nothing else, are remembered. -/
structure Program.BodiesAnnotated (program : Program) (context : Context) : Prop where
  /-- A node has the type that the rules give it in the scope of its procedure. -/
  own : ∀ procedure ∈ program.procedures, ∀ node ∈ allNodes procedure.body, ∀ type,
    context.findings.exprs.at? node.id = some type ↔ TypeIn context.types context.scopes procedure type node
  only : ∀ id, (context.findings.exprs.at? id).isSome ↔ ∃ node ∈ program.bodyNodes, node.id = id
  count : context.findings.exprs.length = program.bodyNodes.length

namespace Keyed
variable {κ ν : Type} [DecidableEq κ]

/-- Pairs with new keys go behind the others. -/
theorem putAll_of_nodup {m pairs : Keyed κ ν} (hn : ((m ++ pairs).map (·.1)).Nodup) : m.putAll pairs = m ++ pairs := by
  induction pairs generalizing m with
  | nil => exact (List.append_nil m).symm
  | cons pair rest ih =>
    have hnew : m.at? pair.1 = none := by
      rw [at?_eq_none_iff]
      rw [List.map_append, List.map_cons] at hn
      exact fun hm => (List.nodup_append.mp hn).2.2 _ hm _ List.mem_cons_self rfl
    have happend : m ++ pair :: rest = m ++ [pair] ++ rest := by simp
    rw [putAll, List.foldl_cons, put_of_at?_eq_none hnew, happend]
    exact ih (happend ▸ hn)

theorem isSome_at?_iff (m : Keyed κ ν) (key : κ) : (m.at? key).isSome ↔ key ∈ m.map (·.1) := by
  rw [← Option.ne_none_iff_isSome, Ne, at?_eq_none_iff, Decidable.not_not]

end Keyed

namespace TypeExpr

private theorem mem_parts {expr inner : TypeExpr} : inner ∈ expr.parts ↔ ∃ depth, expr.below? depth = some inner := by
  induction expr with
  | named node name =>
    rw [parts, List.mem_singleton]
    constructor
    · rintro rfl
      exact ⟨0, rfl⟩
    · rintro ⟨depth, h⟩
      cases depth with
      | zero => exact (Option.some.inj h).symm
      | succ depth => cases h
  | array node length base ih =>
    rw [parts, List.mem_append, List.mem_singleton, ih]
    constructor
    · rintro (⟨depth, h⟩ | rfl)
      · exact ⟨depth + 1, h⟩
      · exact ⟨0, rfl⟩
    · rintro ⟨depth, h⟩
      cases depth with
      | zero => exact .inr (Option.some.inj h).symm
      | succ depth => exact .inl ⟨depth, h⟩

/-- The nodes visited have the numbers of the type expression. -/
theorem Takes.map_fst_visits {types : TypeTable} {means : Name → TypeId → Prop} {first type : TypeId}
    {expr : TypeExpr} (h : expr.Takes types means first type) :
    (expr.visits types type).map (·.1) = expr.nodeIds := by
  induction expr generalizing type with
  | named node name => rfl
  | array node length base ih =>
    obtain ⟨_, element, ha, hb⟩ := h
    simp only [visits, ha, nodeIds, List.map_append, ih hb, List.map_cons, List.map_nil]

end TypeExpr

namespace Program
variable {program : Program}

/-- The type expressions are those that stand at some occurrence. -/
theorem mem_typeExprs {expr : TypeExpr} :
    expr ∈ program.typeExprs ↔ ∃ o, program.typeExpr? o = some expr := by
  unfold typeExprs typeExpr?
  simp only [List.mem_flatMap, TypeExpr.mem_parts, Option.bind_eq_some_iff]
  constructor
  · rintro ⟨site, hm, depth, h⟩
    obtain ⟨i, hi⟩ := List.mem_iff_getElem?.mp hm
    exact ⟨⟨i, depth⟩, site, hi, h⟩
  · rintro ⟨o, site, hi, h⟩
    exact ⟨site, List.mem_of_getElem? hi, o.depth, h⟩

private theorem map_id_typeExprs (program : Program) :
    program.typeExprs.map (·.node.id) = program.typeSites.flatMap (·.type.nodeIds) := by
  rw [typeExprs, List.map_flatMap]
  exact List.flatMap_congr fun site _ => site.type.map_id_parts

private theorem map_id_bodyNodes (program : Program) :
    program.bodyNodes.map (·.id) = program.procedures.flatMap fun procedure => allNodeIds procedure.body := by
  rw [bodyNodes, List.map_flatMap]
  exact List.flatMap_congr fun procedure _ => map_id_allNodes procedure.body

/-- If no number occurs at two places of the tree, none does in the type expressions. -/
theorem typeExprs_nodup (hn : program.nodeIds.Nodup) : (program.typeExprs.map (·.node.id)).Nodup := by
  rw [map_id_typeExprs]
  refine hn.sublist ?_
  unfold typeSites nodeIds
  induction program.declarations with
  | nil => exact .slnil
  | cons declaration rest ih =>
    rw [List.flatMap_cons, List.flatMap_append, List.flatMap_cons]
    refine List.Sublist.append ?_ ih
    cases declaration with
    | type declaration =>
      rw [Declaration.typeSites, List.flatMap_singleton]
      exact .refl _
    | procedure procedure =>
      rw [Declaration.typeSites, List.flatMap_append, List.flatMap_map, List.flatMap_map]
      exact List.sublist_append_left _ _

end Program

namespace Program.Given
variable {program : Program} {context : Context} {typed : List (TypeSite × TypeId)}

private theorem map_fst_visits (h : program.Given context typed) :
    (typed.flatMap fun p => p.1.type.visits context.types p.2).map (·.1) = program.typeExprs.map (·.node.id) := by
  rw [map_id_typeExprs, ← h.sites, List.map_flatMap, List.flatMap_map]
  refine List.flatMap_congr fun p hp => ?_
  obtain ⟨i, hi⟩ := List.mem_iff_getElem?.mp hp
  exact (h.resolves.takes hi).map_fst_visits

/-- What is remembered for type expressions is what was found for them, in order. -/
theorem typeExprs_eq (h : program.Given context typed) (hn : program.nodeIds.Nodup) :
    context.findings.typeExprs = typed.flatMap fun p => p.1.type.visits context.types p.2 := by
  rw [h.resolves.found]
  refine Keyed.putAll_of_nodup ?_
  show ((typed.flatMap fun p => p.1.type.visits context.types p.2).map (·.1)).Nodup
  rw [h.map_fst_visits]
  exact typeExprs_nodup hn

private theorem annotated (h : program.Given context typed) (hn : program.nodeIds.Nodup) :
    program.TypeExprsAnnotated context := by
  have hkeys : context.findings.typeExprs.map (·.1) = program.typeExprs.map (·.node.id) := by
    rw [h.typeExprs_eq hn, h.map_fst_visits]
  have hown : ∀ o expr, program.typeExpr? o = some expr → ∃ type, program.typeAt? context o = some type ∧
      context.findings.typeExprs.at? expr.node.id = some type := by
    intro o expr he
    obtain ⟨type, ht, _⟩ := h.exists_type he
    refine ⟨type, ht, Keyed.at?_of_mem (hkeys ▸ typeExprs_nodup hn) ?_⟩
    rw [h.typeExprs_eq hn]
    exact h.mem_visits.mpr ⟨o, expr, he, rfl, ht⟩
  refine ⟨hown, fun id => ?_, fun o node name type he ht => ?_, fun o node length base type he ht => ?_, ?_⟩
  · rw [Keyed.isSome_at?_iff, hkeys, List.mem_map]
  · obtain ⟨same, hsame, hat⟩ := hown o _ he
    obtain rfl := Option.some.inj (hat.symm.trans ht)
    refine (h.known (h.takes he hsame)).imp_right ?_
    rintro ⟨i, expr, hlt, hs, hi⟩
    obtain ⟨found, hfound, hat⟩ := hown ⟨i, 0⟩ expr (typeExpr?_of_site hs)
    obtain rfl := Option.some.inj (hi.symm.trans hfound)
    exact ⟨i, expr, hlt, hs, hat⟩
  · obtain ⟨same, hsame, hat⟩ := hown o _ he
    obtain rfl := Option.some.inj (hat.symm.trans ht)
    obtain ⟨_, element, ha, _⟩ := h.takes he hsame
    obtain ⟨hbase, helement⟩ := h.base_type he hsame ha
    obtain ⟨found, hfound, hat⟩ := hown o.base base hbase
    obtain rfl := Option.some.inj (helement.symm.trans hfound)
    exact ⟨element, ha, hat⟩
  · simpa using congrArg List.length hkeys

end Program.Given

/-- Findings that are remembered alone are the types of the nodes of the bodies. -/
theorem Program.bodiesAnnotated {program : Program} {context : Context}
    (hfinds : List.Forall₂ (FindsIn context.types context.scopes) (occurrences program.procedures)
      context.findings.exprs) (hn : (context.findings.exprs.map (·.1)).Nodup) : program.BodiesAnnotated context := by
  have hkeys : context.findings.exprs.map (·.1) = program.bodyNodes.map (·.id) := by
    rw [map_fst_finds hfinds, map_id_bodyNodes]
  refine ⟨fun procedure hp node hm type => ?_, fun id => ?_, ?_⟩
  · obtain ⟨found, hmem, hfound⟩ := finding_of_mem hfinds (mem_occurrences hp hm)
    have hat := Keyed.at?_of_mem hn hmem
    constructor
    · intro ht
      rw [ht] at hat
      exact Option.some.inj hat ▸ hfound
    · intro ht
      exact ht.unique hfound ▸ hat
  · rw [Keyed.isSome_at?_iff, hkeys, List.mem_map]
  · simpa using congrArg List.length hkeys

/-- A checked program has the types of its type expressions and of the nodes of its bodies remembered, each node its
own and none more than once. -/
theorem compile_annotates {program : Program} (hn : program.nodeIds.Nodup) {c : Compilation}
    (hc : (compile program .checked).1 = .ok c) :
    program.TypeExprsAnnotated c.context ∧ program.BodiesAnnotated c.context := by
  obtain ⟨count, declared, bodies, checked, hd, hchecked, rfl⟩ := compile_checked_iff.mp hc
  obtain ⟨typed, hgiven⟩ := Program.declare_given hd
  obtain ⟨sigs, hsigs, hdeclared⟩ := Program.declare_ok hd
  obtain ⟨found, hfound, hctx⟩ := Program.check_ok hchecked
  obtain ⟨hfinds, -⟩ := hdeclared.checkBodies_ok hsigs hfound
  rw [hsigs] at hfinds
  have hannotated := hgiven.annotated hn
  have hnodup : (found.map (·.1)).Nodup := by
    rw [map_fst_finds hfinds]
    exact Program.bodies_nodup hn
  -- Nothing is remembered for expressions when the check begins.
  have hempty : declared.context.findings.exprs = [] := by
    have hexprs := (program.declare_registers .initial declared_initial.grounded).exprs
    rwa [runFrom, hd] at hexprs
  have hexprs : checked.context.findings.exprs = found := by
    rw [hctx, Context.rememberExprs, hempty]
    exact Keyed.putAll_of_nodup hnodup
  have hbodies : program.BodiesAnnotated checked.context := by
    refine Program.bodiesAnnotated ?_ (hexprs ▸ hnodup)
    rw [hexprs, hctx]
    exact hfinds
  refine ⟨?_, hbodies⟩
  rw [hctx]
  exact ⟨hannotated.own, hannotated.only, hannotated.named, hannotated.array, hannotated.count⟩

/-- Rows of a matrix are filled from elements of others, and one is passed by reference. -/
def matrixFilled : Program where
  position := ⟨1, 1⟩
  declarations := [
    .type ⟨⟨1, 1⟩, "row", .array ⟨0, ⟨1, 12⟩⟩ 3 (.named ⟨1, ⟨1, 25⟩⟩ "int")⟩,
    .procedure {
      position := ⟨2, 1⟩
      name := "main"
      parameters := []
      locals := [⟨⟨3, 3⟩, "m", .array ⟨2, ⟨3, 10⟩⟩ 2 (.named ⟨3, ⟨3, 23⟩⟩ "row")⟩, ⟨⟨4, 3⟩, "i", .named ⟨4, ⟨4, 10⟩⟩ "int"⟩]
      body := [
        .assign ⟨5, 3⟩
          (.element ⟨5, ⟨5, 7⟩⟩
            (.element ⟨6, ⟨5, 4⟩⟩ (.named ⟨7, ⟨5, 3⟩⟩ "m") (.load ⟨8, ⟨5, 5⟩⟩ (.named ⟨9, ⟨5, 5⟩⟩ "i")))
            (.literal ⟨10, ⟨5, 8⟩⟩ 1))
          (.binary ⟨11, ⟨5, 22⟩⟩ (.arithmetic .add)
            (.load ⟨12, ⟨5, 14⟩⟩ (.element ⟨13, ⟨5, 18⟩⟩
              (.element ⟨14, ⟨5, 15⟩⟩ (.named ⟨15, ⟨5, 14⟩⟩ "m") (.literal ⟨16, ⟨5, 16⟩⟩ 0))
              (.load ⟨17, ⟨5, 19⟩⟩ (.named ⟨18, ⟨5, 19⟩⟩ "i"))))
            (.literal ⟨19, ⟨5, 24⟩⟩ 1)),
        .call ⟨6, 3⟩ "fill" [.load ⟨20, ⟨6, 8⟩⟩
          (.element ⟨21, ⟨6, 9⟩⟩ (.named ⟨22, ⟨6, 8⟩⟩ "m") (.literal ⟨23, ⟨6, 10⟩⟩ 1))]] },
    .procedure {
      position := ⟨8, 1⟩
      name := "fill"
      parameters := [⟨⟨8, 11⟩, "r", .named ⟨24, ⟨8, 18⟩⟩ "row", true⟩]
      locals := []
      body := [
        .ifThen ⟨9, 3⟩
          (.binary ⟨25, ⟨9, 10⟩⟩ (.comparison .lt)
            (.load ⟨26, ⟨9, 7⟩⟩ (.element ⟨27, ⟨9, 8⟩⟩ (.named ⟨28, ⟨9, 7⟩⟩ "r") (.literal ⟨29, ⟨9, 9⟩⟩ 0)))
            (.literal ⟨30, ⟨9, 14⟩⟩ 2))
          (.assign ⟨9, 17⟩ (.element ⟨31, ⟨9, 18⟩⟩ (.named ⟨32, ⟨9, 17⟩⟩ "r") (.literal ⟨33, ⟨9, 19⟩⟩ 0))
            (.literal ⟨34, ⟨9, 25⟩⟩ 2))] }]

theorem matrixFilled_annotates :
    matrixFilled.nodeIds.Nodup ∧ ∃ c, (compile matrixFilled .checked).1 = .ok c ∧
      matrixFilled.TypeExprsAnnotated c.context ∧ matrixFilled.BodiesAnnotated c.context := by
  have hn : matrixFilled.nodeIds.Nodup := by decide
  obtain ⟨c, hc⟩ := exists_ok_of_isOk (show (compile matrixFilled .checked).1.isOk by decide +kernel)
  exact ⟨hn, c, hc, compile_annotates hn hc⟩

end SplLang
