import SplLang.Proofs.Shapes
import SplLang.Proofs.Stages

/-! How the code of a program checks its subscripts: each of them once and in order, with the length
and the element size of the array type remembered for the number of its array. That is the type
found at the last place where the number occurs. -/
namespace SplLang
open Machine

/-- What the code of a subscript in a body of the given scope compares its index with and
multiplies it by. -/
structure BoundCheck where
  scope : ScopeId
  subscript : Subscript
  length : UInt32
  elementSize : UInt32

/-- The length of an array type and the size of its elements. -/
def TypeTable.bounds? (table : TypeTable) (type : TypeId) : Option (UInt32 × UInt32) :=
  (table.array? type).map fun (element, length) => (length, table.byteSize element)

/-- The line neither compares unsigned numbers nor multiplies by a constant. -/
def Machine.Line.isPlain : Line → Bool
  | .instruction ⟨.bgeu, _⟩ => false
  | .instruction ⟨.mul, [_, _, .imm _]⟩ => false
  | _ => true

/-- The checks of subscripts in a piece of code, in order. The code for a subscript leaves the
address of its array and its index in two registers; then it checks the index and scales it. Outside
of such checks all lines are plain. -/
inductive Checked (context : Context) : Assembly → List BoundCheck → Prop
  | nil : Checked context [] []
  | plain {line : Line} : line.isPlain → Checked context [line] []
  | append {first rest : Assembly} {checks others : List BoundCheck} :
      Checked context first checks → Checked context rest others →
        Checked context (first ++ rest) (checks ++ others)
  | element {scratch middle last : Scratch} {first rest : Assembly} {checks others : List BoundCheck}
      (check : BoundCheck) :
      (check.subscript.array.addressCode ⟨context, check.scope⟩ scratch).Gives middle first →
      (check.subscript.index.valueCode ⟨context, check.scope⟩ middle).Gives last rest →
      Checked context first checks → Checked context rest others →
        Checked context (first ++ rest ++ elementCode last check.length check.elementSize)
          (checks ++ others ++ [check])

/-- The check of a subscript in a body, as the type remembered for its array gives it. -/
structure CheckOf (body : Body) (sub : Subscript) (check : BoundCheck) : Prop where
  scope : check.scope = body.scope
  subscript : check.subscript = sub
  bounds : (body.context.findings.exprs.at? sub.array.node.id).bind body.context.types.bounds? =
    some (check.length, check.elementSize)

/-- The code checks these subscripts of a body. -/
def ChecksAll (body : Body) (found : Assembly) (subscripts : List Subscript) : Prop :=
  ∃ checks, Checked body.context found checks ∧ List.Forall₂ (CheckOf body) subscripts checks

section
variable {context : Context} {body : Body} {first rest found : Assembly} {line : Line}
  {subscripts others : List Subscript}

theorem ChecksAll.nil : ChecksAll body [] [] := ⟨[], .nil, .nil⟩

theorem ChecksAll.append (h : ChecksAll body first subscripts) (h' : ChecksAll body rest others) :
    ChecksAll body (first ++ rest) (subscripts ++ others) := by
  obtain ⟨checks, hc, hs⟩ := h
  obtain ⟨more, hc', hs'⟩ := h'
  exact ⟨checks ++ more, hc.append hc', List.rel_append hs hs'⟩

private theorem ChecksAll.plain (hl : ∀ line ∈ found, line.isPlain) : ChecksAll body found [] := by
  induction found with
  | nil => exact .nil
  | cons line found ih =>
    obtain ⟨hline, hfound⟩ := List.forall_mem_cons.mp hl
    have hone : ChecksAll body [line] [] := ⟨[], .plain hline, .nil⟩
    exact hone.append (ih hfound)

private theorem ChecksAll.append_plain (h : ChecksAll body first subscripts)
    (hl : ∀ line ∈ rest, line.isPlain) : ChecksAll body (first ++ rest) subscripts := by
  have := h.append (.plain hl)
  rwa [List.append_nil] at this

private theorem ChecksAll.append_line (h : ChecksAll body first subscripts) (hl : line.isPlain) :
    ChecksAll body (first ++ [line]) subscripts :=
  h.append_plain (List.forall_mem_singleton.mpr hl)

private theorem followCode_plain {byReference : Bool} {register : Register} :
    ∀ line ∈ followCode byReference register, line.isPlain := by
  cases byReference <;> simp [followCode, Line.isPlain]

theorem noted?_bounds {array : Variable} {element : TypeId} {length : UInt32}
    (h : body.noted? array = some (element, length)) :
    (body.context.findings.exprs.at? array.node.id).bind body.context.types.bounds? =
      some (length, body.context.types.byteSize element) := by
  obtain ⟨type, ht, ha⟩ := Option.bind_eq_some_iff.mp h
  rw [ht, Option.bind_some, TypeTable.bounds?, ha]
  rfl

mutual

/-- Code for an address checks the subscripts in it. -/
theorem Variable.addressCode_checks (v : Variable) {scratch result : Scratch} {found : Assembly}
    (h : (v.addressCode body scratch).Gives result found) : ChecksAll body found v.subscripts := by
  cases v with
  | named node name =>
    obtain ⟨_, byReference, _, _, _, rfl⟩ := Variable.named_shape h
    exact .plain (List.forall_mem_cons.mpr ⟨rfl, followCode_plain⟩)
  | element node array index =>
    obtain ⟨element, length, _, last, first, rest, hn, ha, hi, _, _, rfl⟩ := Variable.element_shape h
    obtain ⟨checks, hc, hs⟩ := array.addressCode_checks ha
    obtain ⟨more, hc', hs'⟩ := index.valueCode_checks hi
    let check : BoundCheck := ⟨body.scope, ⟨array, index⟩, length, body.context.types.byteSize element⟩
    have hown : CheckOf body ⟨array, index⟩ check := ⟨rfl, rfl, noted?_bounds hn⟩
    exact ⟨_, .element check ha hi hc hc', List.rel_append (List.rel_append hs hs') (.cons hown .nil)⟩

/-- Code for a value checks the subscripts in it. -/
theorem Expr.valueCode_checks (e : Expr) {scratch result : Scratch} {found : Assembly}
    (h : (e.valueCode body scratch).Gives result found) : ChecksAll body found e.subscripts := by
  cases e with
  | literal node value =>
    obtain ⟨_, _, rfl⟩ := Expr.literal_shape h
    exact .plain (List.forall_mem_singleton.mpr rfl)
  | load node source =>
    obtain ⟨_, hs, rfl⟩ := Expr.load_shape h
    exact (source.addressCode_checks hs).append_line rfl
  | binary node op left right =>
    obtain ⟨arithmetic, _, _, _, _, _, hl, hr, _, rfl⟩ := Expr.binary_shape h
    apply ((left.valueCode_checks hl).append (right.valueCode_checks hr)).append_line
    cases arithmetic <;> rfl

end

private theorem Expr.conditionCode_checks {condition : Expr} {target : Label} {u : Unit}
    (h : (condition.conditionCode body target).Gives u found) :
    ChecksAll body found condition.subscripts := by
  obtain ⟨_, comparison, left, right, _, _, _, _, rfl, hl, hr, rfl⟩ := Expr.condition_shape h
  apply ((left.valueCode_checks hl).append (right.valueCode_checks hr)).append_line
  cases comparison <;> rfl

private theorem Expr.argumentCode_checks {argument : Expr} {byReference : Bool} {result : Scratch}
    (h : (argument.argumentCode body byReference).Gives result found) :
    ChecksAll body found argument.subscripts := by
  cases byReference with
  | false => exact argument.valueCode_checks (Expr.value_argument_shape h)
  | true =>
    obtain ⟨_, source, rfl, hs⟩ := Expr.reference_argument_shape h
    exact source.addressCode_checks hs

private theorem argumentsCode_checks {callee : Name} {slots : List Slot} {arguments : List Expr} {u : Unit}
    {found : Assembly} (hn : arguments.length = slots.length)
    (h : (argumentsCode body callee slots arguments).Gives u found) :
    ChecksAll body found (arguments.flatMap (·.subscripts)) := by
  induction slots generalizing arguments found with
  | nil =>
    obtain rfl := List.length_eq_zero_iff.mp hn
    obtain ⟨_, rfl⟩ := Trail.gives_pure.mp h
    exact .nil
  | cons slot slots ih =>
    cases arguments with
    | nil => cases hn
    | cons argument arguments =>
      obtain ⟨offset, last, first, rest, _, ha, hr, rfl⟩ := arguments_shape h
      have hstore : (instr .stw [last.top, Register.stackPointer, .imm offset.toNat]).isPlain := rfl
      have hall := ((Expr.argumentCode_checks ha).append_line hstore).append (ih (Nat.succ.inj hn) hr)
      rwa [List.append_assoc] at hall

mutual

/-- Code for a well-typed statement checks the subscripts in it. -/
theorem Stmt.code_checks (s : Stmt) (ht : s.Typed body.around) {before after : LabelSupply}
    {found : Assembly} (h : (s.code body before).Gives after found) :
    ChecksAll body found s.subscripts := by
  cases s with
  | assign position target value =>
    obtain ⟨_, _, _, _, _, htarget, hv, rfl⟩ := Stmt.assign_shape h
    exact ((target.addressCode_checks htarget).append (value.valueCode_checks hv)).append_line rfl
  | ifThen position condition thenPart =>
    obtain ⟨_, _, hc, hp, rfl⟩ := Stmt.ifThen_shape h
    cases ht with
    | ifThen _ htp =>
      exact ((Expr.conditionCode_checks hc).append (thenPart.code_checks htp hp)).append_line rfl
  | ifElse position condition thenPart elsePart =>
    obtain ⟨_, _, _, _, hc, hp, he, rfl⟩ := Stmt.ifElse_shape h
    cases ht with
    | ifElse _ htp hte =>
      have hthen := (Expr.conditionCode_checks hc).append (thenPart.code_checks htp hp)
      refine ((hthen.append_plain ?_).append (elsePart.code_checks hte he)).append_line rfl
      simp [Line.isPlain]
  | whileDo position condition loopBody =>
    obtain ⟨_, _, hc, hb, rfl⟩ := Stmt.whileDo_shape h
    cases ht with
    | whileDo _ htb =>
      have hstart : ChecksAll body [.label (.generated before.issued)] [] :=
        .plain (List.forall_mem_singleton.mpr rfl)
      have hround := (hstart.append (Expr.conditionCode_checks hc)).append (loopBody.code_checks htb hb)
      apply hround.append_plain
      simp [Line.isPlain]
  | call position callee arguments =>
    obtain ⟨entry, _, _, he, ha, rfl⟩ := Stmt.call_shape h
    exact (argumentsCode_checks (ht.length_arguments he) ha).append_line rfl
  | block position stmts =>
    rw [Stmt.code] at h
    cases ht with
    | block hts => exact codeAll_checks stmts hts h
  | empty position =>
    rw [Stmt.code] at h
    obtain ⟨_, rfl⟩ := Trail.gives_pure.mp h
    exact .nil

theorem codeAll_checks (stmts : List Stmt) (ht : ∀ stmt ∈ stmts, stmt.Typed body.around)
    {before after : LabelSupply} {found : Assembly}
    (h : (codeAll body before stmts).Gives after found) :
    ChecksAll body found (allSubscripts stmts) := by
  cases stmts with
  | nil =>
    rw [codeAll] at h
    obtain ⟨_, rfl⟩ := Trail.gives_pure.mp h
    exact .nil
  | cons stmt stmts =>
    obtain ⟨_, _, _, hs, hr, rfl⟩ := codeAll_shape h
    obtain ⟨hst, hrt⟩ := List.forall_mem_cons.mp ht
    exact (stmt.code_checks hst hs).append (codeAll_checks stmts hrt hr)

end

private theorem returnAddressLines_plain {frame : FrameLayout} {mnemonic : Mnemonic}
    (hm : mnemonic = .ldw ∨ mnemonic = .stw) :
    ∀ line ∈ returnAddressLines frame mnemonic, line.isPlain := by
  unfold returnAddressLines
  cases frame.savedReturnAddress <;> rcases hm with rfl | rfl <;> simp [Line.isPlain]

private theorem Procedure.code_checks {scope : ScopeId} {frame : FrameLayout} {procedure : Procedure}
    {before after : LabelSupply}
    (ht : ∀ stmt ∈ procedure.body, stmt.Typed ⟨context.types, context.scopes, scope⟩)
    (h : (procedure.code context scope frame before).Gives after found) :
    ChecksAll ⟨context, scope⟩ found (allSubscripts procedure.body) := by
  obtain ⟨inner, hi, rfl⟩ := Procedure.code_shape h
  have hprologue : ∀ line ∈ prologue frame, line.isPlain := by
    have hlines : ∀ line ∈ returnAddressLines frame .stw, line.isPlain :=
      returnAddressLines_plain (.inr rfl)
    simpa [prologue, Line.isPlain] using hlines
  have hepilogue : ∀ line ∈ epilogue frame, line.isPlain := by
    rw [epilogue, List.forall_mem_append]
    refine ⟨returnAddressLines_plain (.inl rfl), ?_⟩
    simp [Line.isPlain]
  have hlead : ChecksAll ⟨context, scope⟩
      (.directive (".export " ++ procedure.name) :: .label (.named procedure.name) :: prologue frame) [] :=
    .plain (List.forall_mem_cons.mpr ⟨rfl, List.forall_mem_cons.mpr ⟨rfl, hprologue⟩⟩)
  exact (hlead.append (codeAll_checks _ ht hi)).append_plain hepilogue

/-- The subscripts in the bodies, each with the procedure that it lies in. -/
def subscriptsIn (procedures : List Procedure) : List (Procedure × Subscript) :=
  procedures.flatMap fun procedure => (allSubscripts procedure.body).map (procedure, ·)

/-- The check of a subscript in the procedure, as the type remembered for its array gives it. -/
def CheckIn (context : Context) (occurrence : Procedure × Subscript) (check : BoundCheck) : Prop :=
  ∃ scope, (context.scopes.procedure? occurrence.1.name).bind (·.scope) = some scope ∧
    CheckOf ⟨context, scope⟩ occurrence.2 check

private theorem proceduresCode_checks {sigs members : List Signature} {area : Signature → OutgoingArea}
    (h : Prepared context sigs area) (hm : ∀ sig ∈ members, sig ∈ sigs)
    {before after : LabelSupply} {found : Assembly}
    (hg : (proceduresCode context before (members.map (·.procedure))).Gives after found) :
    ∃ checks, Checked context found checks ∧
      List.Forall₂ (CheckIn context) (subscriptsIn (members.map (·.procedure))) checks := by
  induction members generalizing before found with
  | nil =>
    obtain ⟨_, rfl⟩ := Trail.gives_pure.mp hg
    exact ⟨[], .nil, .nil⟩
  | cons sig members ih =>
    obtain ⟨hs, hms⟩ := List.forall_mem_cons.mp hm
    obtain ⟨scope, frame, _, first, rest, hframe, hf, hr, rfl⟩ := procedures_shape hg
    obtain ⟨others, hrest, hothers⟩ := ih hms hr
    obtain ⟨entry, _, _, hentry, hscope, _⟩ := Procedure.frame_shape hframe
    have hbind : (context.scopes.procedure? sig.procedure.name).bind (·.scope) = some scope := by
      rw [hentry]
      exact hscope
    have hown := h.seen.scope_iff.mpr ⟨sig, hs, rfl, rfl⟩
    rw [hbind] at hown
    cases hown
    obtain ⟨checks, hfirst, hchecks⟩ := Procedure.code_checks (h.typed sig hs) hf
    have hblank : Checked context [.blank] [] := .plain rfl
    refine ⟨checks ++ others, (hblank.append hfirst).append hrest, List.rel_append ?_ hothers⟩
    rw [List.forall₂_map_left_iff]
    exact hchecks.imp fun _ _ hcheck => ⟨_, hbind, hcheck⟩

private theorem header_checked (context : Context) : Checked context header [] := by
  have hplain : ∀ line ∈ header, line.isPlain := by decide
  have hall : ChecksAll ⟨context, 0⟩ header [] := .plain hplain
  obtain ⟨checks, hc, hnone⟩ := hall
  cases hnone
  exact hc

/-- The code compares with the length of the array type and multiplies by its element size. -/
def BoundCheck.Fits (check : BoundCheck) (types : TypeTable) (type : TypeId) : Prop :=
  types.bounds? type = some (check.length, check.elementSize)

/-- The code for the subscript in the scope of its procedure makes the check. -/
def BoundCheck.StandsFor (check : BoundCheck) (scopes : ScopeTree) (occurrence : Procedure × Subscript) :
    Prop :=
  (scopes.procedure? occurrence.1.name).bind (·.scope) = some check.scope ∧
    check.subscript = occurrence.2

/-- The check fits the type that the array has in the scope of its procedure. -/
def BoundCheck.FitsOwn (check : BoundCheck) (context : Context) (occurrence : Procedure × Subscript) :
    Prop :=
  ∃ own, TypeIn context.types context.scopes occurrence.1 own (.place occurrence.2.array) ∧
    check.Fits context.types own

private theorem mem_subscriptsIn {procedures : List Procedure} {occurrence : Procedure × Subscript}
    (h : occurrence ∈ subscriptsIn procedures) :
    occurrence.1 ∈ procedures ∧ occurrence.2 ∈ allSubscripts occurrence.1.body := by
  obtain ⟨procedure, hp, hsub⟩ := List.mem_flatMap.mp h
  obtain ⟨sub, hs, rfl⟩ := List.mem_map.mp hsub
  exact ⟨hp, hs⟩

section
variable {program : Program} {sigs : List Signature} {area : Signature → OutgoingArea}
  {recorded : List Finding} {supply : LabelSupply} {assembly : Assembly}

theorem Prepared.code_checks (h : Prepared context sigs area)
    (hsigs : sigs.map (·.procedure) = program.procedures)
    (hg : (program.code context).Gives supply assembly) :
    ∃ checks, Checked context assembly checks ∧
      List.Forall₂ (CheckIn context) (subscriptsIn program.procedures) checks := by
  obtain ⟨rest, hr, rfl⟩ := Program.code_shape hg
  rw [← hsigs] at hr ⊢
  obtain ⟨checks, hc, hall⟩ := proceduresCode_checks h (fun _ hs => hs) hr
  exact ⟨checks, (header_checked context).append hc, hall⟩

/-- In its own procedure the array of a subscript has an array type. -/
theorem Recorded.own (h : Recorded context sigs recorded) {occurrence : Procedure × Subscript}
    (ho : occurrence ∈ subscriptsIn (sigs.map (·.procedure))) :
    ∃ own, TypeIn context.types context.scopes occurrence.1 own (.place occurrence.2.array) ∧
      (context.types.bounds? own).isSome := by
  obtain ⟨hp, hsub⟩ := mem_subscriptsIn ho
  obtain ⟨⟨node, hn⟩, _⟩ := allSubscripts_nodes _ hsub
  obtain ⟨element, _, scope, hscope, ht⟩ := finding_of_mem h.finds (mem_occurrences hp hn)
  cases ht with
  | element harray _ ha =>
    refine ⟨_, ⟨scope, hscope, harray⟩, ?_⟩
    rw [TypeTable.bounds?, ha]
    rfl

/-- What is remembered for the array of a subscript is the type at the last place of its number. -/
theorem Recorded.last_of_subscript (h : Recorded context sigs recorded)
    {occurrence : Procedure × Subscript}
    (ho : occurrence ∈ subscriptsIn (sigs.map (·.procedure))) :
    ∃ last place, context.findings.exprs.at? occurrence.2.array.node.id = some last ∧
      LastPlace (sigs.map (·.procedure)) occurrence.2.array.node.id place ∧
      TypeIn context.types context.scopes place.1 last place.2 := by
  obtain ⟨hp, hsub⟩ := mem_subscriptsIn ho
  obtain ⟨type, hm, _⟩ := finding_of_mem h.finds (mem_occurrences hp (allSubscripts_nodes _ hsub).2)
  exact h.last (List.mem_map_of_mem hm)

end

private theorem forall₂_imp_of_mem {α β : Type} {R S : α → β → Prop} {xs : List α} {ys : List β}
    (h : List.Forall₂ R xs ys) (hi : ∀ x ∈ xs, ∀ y, R x y → S x y) : List.Forall₂ S xs ys := by
  induction h with
  | nil => exact .nil
  | cons hr _ ih =>
    obtain ⟨hx, hxs⟩ := List.forall_mem_cons.mp hi
    exact .cons (hx _ hr) (ih hxs)

end

/-- The check of a subscript goes by the last place that has the number of its array, which has its own type where the
subscript stands. -/
structure Program.ChecksByLast (program : Program) (context : Context) (occurrence : Procedure × Subscript)
    (check : BoundCheck) (own last : TypeId) (place : Procedure × TreeNode) : Prop where
  standsFor : check.StandsFor context.scopes occurrence
  own_type : TypeIn context.types context.scopes occurrence.1 own (.place occurrence.2.array)
  own_array : (context.types.bounds? own).isSome
  last_place : LastPlace program.procedures occurrence.2.array.node.id place
  last_type : TypeIn context.types context.scopes place.1 last place.2
  fits : check.Fits context.types last
  fitsOwn_iff : check.FitsOwn context occurrence ↔ context.types.bounds? own = context.types.bounds? last

/-- The code of a compiled program checks each subscript in the bodies once and in order. The check
fits the type at the last place where the number of the array occurs; so it fits the type that the
array has in its own procedure exactly if both types have one length and one element size. -/
theorem compile_checks_last {program : Program} {c : Compilation} {assembly : Assembly}
    (h : (compile program .generated).1 = .ok c) (ha : c.assembly = some assembly) :
    ∃ checks, Checked c.context assembly checks ∧
      List.Forall₂ (fun occurrence check =>
          ∃ own last place, program.ChecksByLast c.context occurrence check own last place)
        (subscriptsIn program.procedures) checks := by
  obtain ⟨sigs, area, recorded, supply, hsigs, hprepared, hrecorded, hcode⟩ := compile_prepared h ha
  obtain ⟨checks, hchecked, hall⟩ := hprepared.code_checks hsigs hcode
  refine ⟨checks, hchecked, forall₂_imp_of_mem hall ?_⟩
  rintro occurrence ho check ⟨scope, hscope, hcheck⟩
  rw [← hsigs] at ho
  obtain ⟨own, hown, harray⟩ := hrecorded.own ho
  obtain ⟨last, place, hat, hplace, hlast⟩ := hrecorded.last_of_subscript ho
  rw [hsigs] at hplace
  have hfits : check.Fits c.context.types last := by
    have hbounds := hcheck.bounds
    rwa [hat, Option.bind_some] at hbounds
  refine ⟨own, last, place, ⟨?_, hcheck.subscript⟩, hown, harray, hplace, hlast, hfits, ?_, ?_⟩
  · rw [hcheck.scope]
    exact hscope
  · rintro ⟨other, hother, hfit⟩
    rw [hown.unique hother]
    exact hfit.trans hfits.symm
  · intro heq
    exact ⟨own, hown, heq.trans hfits⟩

/-- If no node number occurs at two places, the code checks every subscript against its own array. -/
theorem compile_checks_own {program : Program} {c : Compilation} {assembly : Assembly}
    (h : (compile program .generated).1 = .ok c) (ha : c.assembly = some assembly)
    (hn : program.nodeIds.Nodup) :
    ∃ checks, Checked c.context assembly checks ∧
      List.Forall₂ (fun occurrence check => BoundCheck.StandsFor check c.context.scopes occurrence ∧
        check.FitsOwn c.context occurrence) (subscriptsIn program.procedures) checks := by
  obtain ⟨sigs, area, recorded, supply, hsigs, hprepared, hrecorded, hcode⟩ := compile_prepared h ha
  obtain ⟨checks, hchecked, hall⟩ := hprepared.code_checks hsigs hcode
  refine ⟨checks, hchecked, forall₂_imp_of_mem hall ?_⟩
  rintro ⟨procedure, sub⟩ ho check ⟨scope, hscope, hcheck⟩
  obtain ⟨hp, hsub⟩ := mem_subscriptsIn ho
  rw [← hsigs] at hp
  obtain ⟨sig, hs, rfl⟩ := List.mem_map.mp hp
  obtain ⟨own, hown, hat⟩ := hrecorded.noted hprepared hsigs hn hs sub hsub
  have hbounds := hcheck.bounds
  rw [hat, Option.bind_some] at hbounds
  refine ⟨⟨?_, hcheck.subscript⟩, own, (hprepared.seen.typeIn_iff hs).mpr hown, hbounds⟩
  rw [hcheck.scope]
  exact hscope

/-- The constant that a line multiplies by. -/
def Machine.Line.factor? : Line → Option Int
  | .instruction ⟨.mul, [_, _, .imm size]⟩ => some size
  | _ => none

/-- The element sizes that code multiplies by. -/
def Machine.Assembly.elementSizes (assembly : Assembly) : List Int := assembly.filterMap (·.factor?)

/-- The checks in a piece of code are not a matter of choice. -/
theorem Checked.elementSizes {context : Context} {found : Assembly} {checks : List BoundCheck}
    (h : Checked context found checks) :
    found.elementSizes = checks.map fun check => (check.elementSize.toNat : Int) := by
  induction h with
  | nil => rfl
  | @plain line hl =>
    have hnone : line.factor? = none := by
      unfold Line.factor?
      split
      · cases hl
      · rfl
    exact List.filterMap_cons_none hnone
  | append _ _ ih ih' =>
    rw [Assembly.elementSizes, List.filterMap_append, List.map_append, ← ih, ← ih']
    rfl
  | element check _ _ _ _ ih ih' =>
    rw [Assembly.elementSizes, List.filterMap_append, List.filterMap_append, List.map_append,
      List.map_append, ← ih, ← ih']
    rfl

/-- Two procedures with different arrays `a`, and one node that is used for both of them. -/
def arrayShared : Program where
  position := ⟨1, 1⟩
  declarations := [
    .procedure {
      position := ⟨1, 1⟩
      name := "first"
      parameters := []
      locals := [⟨⟨1, 20⟩, "a", .array ⟨2, ⟨1, 30⟩⟩ 3 (.named ⟨1, ⟨1, 40⟩⟩ "int")⟩]
      body := [.assign ⟨1, 48⟩
        (.element ⟨4, ⟨1, 48⟩⟩ (.named ⟨0, ⟨3, 3⟩⟩ "a") (.literal ⟨3, ⟨1, 50⟩⟩ 4))
        (.literal ⟨5, ⟨1, 60⟩⟩ 7)] },
    .procedure {
      position := ⟨2, 1⟩
      name := "main"
      parameters := []
      locals := [⟨⟨2, 20⟩, "a", .array ⟨8, ⟨2, 30⟩⟩ 8 (.array ⟨7, ⟨2, 40⟩⟩ 2
        (.named ⟨6, ⟨2, 50⟩⟩ "int"))⟩]
      body := [.assign ⟨2, 58⟩
        (.element ⟨12, ⟨2, 58⟩⟩
          (.element ⟨10, ⟨2, 58⟩⟩ (.named ⟨0, ⟨3, 3⟩⟩ "a") (.literal ⟨9, ⟨2, 60⟩⟩ 4))
          (.literal ⟨11, ⟨2, 64⟩⟩ 1))
        (.literal ⟨13, ⟨2, 70⟩⟩ 7)] }]

/-- It compiles; there are three element sizes in its code, and the array of the first procedure has
elements of another size than the first one of them. -/
private theorem arrayShared_code :
    ∃ c assembly, (compile arrayShared .generated).1 = .ok c ∧ c.assembly = some assembly ∧
      assembly.elementSizes = [8, 8, 4] ∧
      (c.context.scopes.procedure? "first").bind (·.scope) = some 1 ∧
      Surroundings.varType? ⟨c.context.types, c.context.scopes, 1⟩ "a" = some 2 ∧
      c.context.types.bounds? 2 = some (3, 4) := by
  have hcode : ((compile arrayShared .generated).1.toOption.bind fun c => c.assembly.map fun assembly =>
      (assembly.elementSizes, (c.context.scopes.procedure? "first").bind (·.scope),
        Surroundings.varType? ⟨c.context.types, c.context.scopes, 1⟩ "a", c.context.types.bounds? 2)) =
      some ([8, 8, 4], some 1, some 2, some (3, 4)) := by
    decide +kernel
  cases hc : (compile arrayShared .generated).1 with
  | error d =>
    rw [hc] at hcode
    cases hcode
  | ok c =>
    rw [hc] at hcode
    obtain ⟨assembly, ha, hfacts⟩ := Option.map_eq_some_iff.mp hcode
    obtain ⟨hsizes, hfacts⟩ := Prod.mk.inj hfacts
    obtain ⟨hscope, hfacts⟩ := Prod.mk.inj hfacts
    obtain ⟨htype, hbounds⟩ := Prod.mk.inj hfacts
    exact ⟨c, assembly, rfl, ha, hsizes, hscope, htype, hbounds⟩

theorem arrayShared_checks_last :
    ∃ c assembly, (compile arrayShared .generated).1 = .ok c ∧ c.assembly = some assembly ∧
      ∃ checks, Checked c.context assembly checks ∧
        List.Forall₂ (fun occurrence check =>
            ∃ own last place, arrayShared.ChecksByLast c.context occurrence check own last place)
          (subscriptsIn arrayShared.procedures) checks := by
  obtain ⟨c, assembly, hc, ha, _⟩ := arrayShared_code
  exact ⟨c, assembly, hc, ha, compile_checks_last hc ha⟩

/-- The array of the first procedure is checked like that of the second one. -/
theorem arrayShared_not_own :
    ∃ c assembly, (compile arrayShared .generated).1 = .ok c ∧ c.assembly = some assembly ∧
      ¬ ∃ checks, Checked c.context assembly checks ∧
        List.Forall₂ (fun occurrence check => BoundCheck.StandsFor check c.context.scopes occurrence ∧
          check.FitsOwn c.context occurrence) (subscriptsIn arrayShared.procedures) checks := by
  obtain ⟨c, assembly, hc, ha, hsizes, hscope, htype, hbounds⟩ := arrayShared_code
  refine ⟨c, assembly, hc, ha, ?_⟩
  rintro ⟨checks, hchecked, hall⟩
  rw [hchecked.elementSizes] at hsizes
  cases hall with
  | @cons _ check _ _ hfirst _ =>
    obtain ⟨_, own, ⟨scope, hown, harray⟩, hfits⟩ := hfirst
    have hone : scope = 1 := Option.some.inj (hown.symm.trans hscope)
    rw [hone] at harray
    cases harray with
    | named hname =>
      have htwo : own = 2 := Option.some.inj (hname.symm.trans htype)
      rw [htwo] at hfits
      have hpair := Option.some.inj (hfits.symm.trans hbounds)
      have hsize : check.elementSize = 4 := (Prod.mk.inj hpair).2
      rw [List.map_cons, hsize] at hsizes
      exact absurd (List.cons.inj hsizes).1 (by decide)

end SplLang
