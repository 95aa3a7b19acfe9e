import SplLang.Proofs.Lines
import SplLang.Proofs.Linkable

/-! Where the labels of a procedure are. The block of a procedure defines the generated labels that are issued
for it, each on one line, and its instructions name no other label, but the routine for subscripts out of bounds
and procedures that are imported or have one label line and one export. -/
namespace SplLang
open Machine Machine.Assembly

/-- The block of a procedure, which follows those of the procedures before it in the program. -/
structure Block (context : Context) (earlier : List Procedure) (procedure : Procedure) where
  /-- The blocks of the procedures before it. -/
  front : Assembly
  /-- The labels issued before the block. -/
  before : LabelSupply
  scope : ScopeId
  frame : FrameLayout
  code : Assembly
  /-- The labels issued when the block ends. -/
  after : LabelSupply
  issued : (proceduresCode context .new earlier).Gives before front
  framed : (procedure.frame context.scopes).Gives (scope, frame) []
  emitted : (procedure.code context scope frame before).Gives after code

/-- The block stands in the program behind the header and the blocks before it. -/
def Block.StandsIn {context : Context} {earlier : List Procedure} {procedure : Procedure}
    (block : Block context earlier procedure) (assembly : Assembly) : Prop :=
  ∃ rest, assembly = header ++ block.front ++ .blank :: block.code ++ rest

section
variable {context : Context} {earlier later : List Procedure} {procedure : Procedure} {program : Program}
  {supply : LabelSupply} {assembly : Assembly}

/-- Every procedure of a program has its block. -/
theorem Program.exists_block (h : (program.code context).Gives supply assembly)
    (hsplit : program.procedures = earlier ++ procedure :: later) :
    ∃ block : Block context earlier procedure, block.StandsIn assembly := by
  obtain ⟨_, hr, rfl⟩ := Program.code_shape h
  rw [hsplit, proceduresCode_append] at hr
  obtain ⟨before, front, _, hfront, hlater, rfl⟩ := Trail.gives_bind.mp hr
  obtain ⟨scope, frame, after, code, rest, hf, hc, _, rfl⟩ := procedures_shape hlater
  exact ⟨⟨front, before, scope, frame, code, after, hfront, hf, hc⟩, rest, by simp⟩

end

namespace Stmt

def isWhile : Stmt → Bool
  | .whileDo _ _ _ => true
  | _ => false

/-- The statement is an if with an else. -/
def isIfElse : Stmt → Bool
  | .ifElse _ _ _ _ => true
  | _ => false

/-- The statement is an if without an else. -/
def isIfThen : Stmt → Bool
  | .ifThen _ _ _ => true
  | _ => false

end Stmt

/-- Two labels for each loop and each if with an else, and one for each other if. -/
def labelsFor (stmts : List Stmt) : Nat :=
  2 * (stmts.countP (·.isWhile) + stmts.countP (·.isIfElse)) + stmts.countP (·.isIfThen)

theorem labelsFor_append (first rest : List Stmt) : labelsFor (first ++ rest) = labelsFor first + labelsFor rest := by
  unfold labelsFor
  rw [List.countP_append, List.countP_append, List.countP_append]
  omega

theorem labelsFor_cons (s : Stmt) (rest : List Stmt) : labelsFor (s :: rest) = labelsFor [s] + labelsFor rest :=
  labelsFor_append [s] rest

mutual

private theorem Stmt.labelCount_eq (s : Stmt) : s.labelCount = labelsFor s.statements := by
  cases s with
  | ifThen position condition thenPart =>
    rw [Stmt.labelCount, Stmt.statements, labelsFor_cons, thenPart.labelCount_eq]
    rfl
  | ifElse position condition thenPart elsePart =>
    rw [Stmt.labelCount, Stmt.statements, labelsFor_cons, labelsFor_append, thenPart.labelCount_eq, elsePart.labelCount_eq,
      Nat.add_assoc]
    rfl
  | whileDo position condition body =>
    rw [Stmt.labelCount, Stmt.statements, labelsFor_cons, body.labelCount_eq]
    rfl
  | block position body =>
    rw [Stmt.labelCount, Stmt.statements, labelsFor_cons, labelCountAll_eq body]
    exact (Nat.zero_add _).symm
  | assign position target value => rw [Stmt.labelCount, Stmt.statements]; rfl
  | call position callee arguments => rw [Stmt.labelCount, Stmt.statements]; rfl
  | empty position => rw [Stmt.labelCount, Stmt.statements]; rfl

private theorem labelCountAll_eq (body : List Stmt) : labelCountAll body = labelsFor (allStatements body) := by
  cases body with
  | nil => rw [labelCountAll, allStatements]; rfl
  | cons stmt rest => rw [labelCountAll, allStatements, labelsFor_append, stmt.labelCount_eq, labelCountAll_eq rest]

end

private theorem Machine.Assembly.count_label (assembly : Assembly) (l : Label) :
    assembly.count (.label l) = (labels assembly).count l := by
  induction assembly with
  | nil => rfl
  | cons line assembly ih =>
    cases line with
    | label other => rw [labels_label, List.count_cons, List.count_cons, ih]; simp
    | directive words => rw [labels_directive, List.count_cons, ih]; simp
    | instruction i => rw [labels_instruction, List.count_cons, ih]; simp
    | blank => rw [labels_blank, List.count_cons, ih]; simp

/-- The directive that makes a procedure known to other programs. -/
def Machine.Line.exports (name : Name) : Line := .directive (".export " ++ name)

section
variable {context : Context} {program : Program} {found : Assembly} {before after : LabelSupply}

private theorem header_count_exports (name : Name) : header.count (.exports name) = 0 := by
  have hnone : ∀ line ∈ header, ¬ "\t.export ".toList.isPrefixOf line.text.toList := by decide +kernel
  refine List.count_eq_zero.mpr fun hm => hnone _ hm ?_
  rw [Line.exports, Line.export_toList, List.isPrefixOf_iff_prefix]
  exact List.prefix_append _ _

private theorem namesOnly_count_exports {allowed : Label → Prop} (h : NamesOnly allowed found) (name : Name) :
    found.count (.exports name) = 0 :=
  List.count_eq_zero.mpr fun hm => h _ hm

private theorem exports_inj {name other : Name} (h : Line.exports name = .exports other) : name = other := by
  have hwords : ".export " ++ name = ".export " ++ other := Line.directive.inj h
  exact String.append_right_inj _ |>.mp hwords

private theorem Procedure.code_count_exports {scope : ScopeId} {frame : FrameLayout} {procedure : Procedure}
    (h : (procedure.code context scope frame before).Gives after found) (name : Name) :
    found.count (.exports name) = [procedure.name].count name := by
  obtain ⟨inner, hi, rfl⟩ := Procedure.code_shape h
  have hinner : NamesOnly (fun _ => True) inner :=
    codeAll_names trivial procedure.body hi (fun _ _ _ => trivial) fun _ _ => trivial
  have hcode : NamesOnly (fun _ => True)
      (.label (.named procedure.name) :: prologue frame ++ inner ++ epilogue frame) := by
    simp [prologue, epilogue, hinner]
  rw [List.cons_append, List.cons_append, List.count_cons, namesOnly_count_exports hcode, Nat.zero_add,
    List.count_singleton]
  by_cases hn : procedure.name = name
  · simp [Line.exports, hn]
  · rw [if_neg, if_neg (by simpa using hn)]
    exact fun he => hn (exports_inj (eq_of_beq he))

private theorem proceduresCode_count_exports {procedures : List Procedure}
    (h : (proceduresCode context before procedures).Gives after found) (name : Name) :
    found.count (.exports name) = (procedures.map (·.name)).count name := by
  induction procedures generalizing before found with
  | nil =>
    rw [proceduresCode] at h
    rw [(Trail.gives_pure.mp h).2]
    rfl
  | cons procedure procedures ih =>
    obtain ⟨_, _, middle, first, rest, _, hf, hr, rfl⟩ := procedures_shape h
    rw [List.cons_append, List.count_cons_of_ne (by simp [Line.exports]), List.count_append,
      Procedure.code_count_exports hf, ih hr, List.map_cons, ← List.count_append]
    rfl

/-- Each name is exported as often as procedures are called so. -/
theorem Program.code_count_exports (h : (program.code context).Gives after found) (name : Name) :
    found.count (.exports name) = (program.procedures.map (·.name)).count name := by
  obtain ⟨rest, hr, rfl⟩ := Program.code_shape h
  rw [List.count_append, header_count_exports, Nat.zero_add, proceduresCode_count_exports hr]

/-- What an instruction in a block may name if the labels with numbers from the first one up to, but
without, the second one are issued for that block. -/
inductive Program.Target (program : Program) (assembly : Assembly) (first last : Nat) : Mnemonic → Label → Prop
  | generated {mnemonic : Mnemonic} {n : Nat} : first ≤ n → n < last →
      Target program assembly first last mnemonic (.generated n)
  | indexError : Target program assembly first last .bgeu .indexError
  | imported {callee : LibraryProcedure} : callee ∈ library → .directive (".import " ++ callee.name) ∈ header →
      Target program assembly first last .jal (.named callee.name)
  | exported {callee : Procedure} : callee ∈ program.procedures → assembly.count (.label (.named callee.name)) = 1 →
      assembly.count (.exports callee.name) = 1 → Target program assembly first last .jal (.named callee.name)

/-- Labels in the code for statements are drawn for it, or lead to the routine for subscripts or to what is called. -/
theorem Machine.Line.InBody.target {i : Instruction} {l : Label} {first last : Nat} {callees : List Name}
    (h : (Line.instruction i).InBody first last callees) (ho : .label l ∈ i.operands) :
    (∃ n, first ≤ n ∧ n < last ∧ l = .generated n) ∨ (i.mnemonic = .bgeu ∧ l = .indexError) ∨
      ∃ name ∈ callees, i.mnemonic = .jal ∧ l = .named name := by
  cases h with
  | straight hs =>
    cases hs with
    | check index bound => exact .inr (.inl ⟨rfl, by simpa using ho⟩)
    | _ => simp at ho
  | store value base offset => simp at ho
  | branch comparison left right hn hlt => exact .inl ⟨_, hn, hlt, by simpa using ho⟩
  | jump hn hlt => exact .inl ⟨_, hn, hlt, by simpa using ho⟩
  | call hm => exact .inr (.inr ⟨_, hm, rfl, by simpa using ho⟩)

private theorem Machine.Assembly.mem_instructions {assembly : Assembly} {i : Instruction} :
    i ∈ assembly.instructions ↔ .instruction i ∈ assembly := by
  rw [instructions, List.mem_filterMap]
  constructor
  · rintro ⟨line, hline, hi⟩
    cases line <;> cases hi
    exact hline
  · exact fun h => ⟨_, h, rfl⟩

/-- What an instruction of a procedure names is named in its body. -/
theorem Procedure.code_target {scope : ScopeId} {frame : FrameLayout} {procedure : Procedure}
    (h : (procedure.code context scope frame before).Gives after found) {i : Instruction} {l : Label}
    (hi : .instruction i ∈ found) (ho : .label l ∈ i.operands) :
    (∃ n, before.issued ≤ n ∧ n < after.issued ∧ l = .generated n) ∨ (i.mnemonic = .bgeu ∧ l = .indexError) ∨
      ∃ name ∈ allCallees procedure.body, i.mnemonic = .jal ∧ l = .named name := by
  obtain ⟨inner, hinner, rfl⟩ := Procedure.code_shape h
  have hprologue : NamesOnly (fun _ => False) (prologue frame) := by simp [prologue]
  have hepilogue : NamesOnly (fun _ => False) (epilogue frame) := by simp [epilogue]
  rcases List.mem_append.mp hi with hm | hm
  · rcases List.mem_append.mp hm with hm | hm
    · rcases List.mem_cons.mp hm with hm | hm
      · cases hm
      · rcases List.mem_cons.mp hm with hm | hm
        · cases hm
        · exact absurd (hprologue _ hm l ho) id
    · exact (codeAll_lines procedure.body hinner _ hm).target ho
  · exact absurd (hepilogue _ hm l ho) id

private theorem Block.labels_perm {earlier : List Procedure} {procedure : Procedure}
    (block : Block context earlier procedure) :
    (labels block.code).Perm (.named procedure.name :: drawn block.before.issued block.after.issued) := by
  obtain ⟨inner, hdraws, hlabels⟩ := Procedure.code_labels block.emitted
  rw [hlabels]
  exact hdraws.perm.cons _

private theorem Block.after_issued {earlier : List Procedure} {procedure : Procedure}
    (block : Block context earlier procedure) :
    block.after.issued = block.before.issued + labelCountAll procedure.body := by
  obtain ⟨inner, hdraws, -⟩ := Procedure.code_labels block.emitted
  exact hdraws.issued

end

private theorem count_generated_drawn (first last n : Nat) :
    (drawn first last).count (.generated n) = if first ≤ n ∧ n < last then 1 else 0 := by
  rw [drawn_nodup.count, if_congr mem_drawn rfl rfl]

/-- Each label that is issued for a procedure is defined on one line of its block, and no other generated label is. -/
theorem Block.count_generated {context : Context} {earlier : List Procedure} {procedure : Procedure}
    (block : Block context earlier procedure) (n : Nat) :
    block.code.count (.label (.generated n)) =
      if block.before.issued ≤ n ∧ n < block.after.issued then 1 else 0 := by
  rw [Assembly.count_label, block.labels_perm.count_eq, List.count_cons_of_ne (by simp), count_generated_drawn]

section
variable {context : Context} {sigs : List Signature} {area : Signature → OutgoingArea} {program : Program}
  {supply : LabelSupply} {assembly : Assembly}

/-- A name that a body calls belongs to the library, which is imported, or to a procedure with one label line and
one export. -/
theorem Prepared.callee_target (h : Prepared context sigs area) (hsigs : sigs.map (·.procedure) = program.procedures)
    (hcode : (program.code context).Gives supply assembly) {sig : Signature} (hs : sig ∈ sigs) {name : Name}
    (hname : name ∈ allCallees sig.procedure.body) (first last : Nat) :
    program.Target assembly first last .jal (.named name) := by
  have hnames := h.names hsigs
  obtain ⟨size, hsize, _⟩ := h.covered sig hs name hname
  obtain ⟨entry, hentry, _⟩ := Option.bind_eq_some_iff.mp hsize
  rcases (h.seen.callee?_iff hs).mp hentry with ⟨lib, hl, rfl, _⟩ | ⟨other, ho, rfl, _⟩
  · exact .imported hl (List.mem_append_left _ (List.mem_map_of_mem hl))
  · have hm : other.procedure ∈ program.procedures := hsigs ▸ List.mem_map_of_mem ho
    refine .exported hm ?_ ?_
    · rw [Assembly.count_label]
      apply List.count_eq_one_of_mem (Program.code_labels_nodup hcode hnames)
      exact (Program.code_labels hcode).mem_iff.mpr (List.mem_append_left _ (List.mem_map_of_mem hm))
    · rw [Program.code_count_exports hcode]
      exact List.count_eq_one_of_mem hnames (List.mem_map_of_mem hm)

/-- The labels of a block are resolved in the assembly. -/
structure Program.Resolves (program : Program) (assembly : Assembly) {earlier : List Procedure} {procedure : Procedure}
    (block : Block context earlier procedure) : Prop where
  standsIn : block.StandsIn assembly
  /-- The generated labels of the block are those issued for it, each on one line. -/
  defines : ∀ n, block.code.count (.label (.generated n)) =
    if block.before.issued ≤ n ∧ n < block.after.issued then 1 else 0
  targets : ∀ i ∈ block.code.instructions, ∀ l, .label l ∈ i.operands →
    program.Target assembly block.before.issued block.after.issued i.mnemonic l
  issued : block.after.issued = block.before.issued + labelsFor (allStatements procedure.body)

/-- The assembly has a block for each procedure, and no block shares a generated label with another. -/
structure Program.LabelsResolve (program : Program) (context : Context) (assembly : Assembly) : Prop where
  blocks : ∀ earlier procedure later, program.procedures = earlier ++ procedure :: later →
    ∃ block : Block context earlier procedure, program.Resolves assembly block
  unique : ∀ n, assembly.count (.label (.generated n)) ≤ 1

/-- Generated labels resolve. A compiled program consists of a header and a block for each procedure. The labels
issued for a block are the generated labels that it defines, each on one line. Its instructions name these labels,
the routine for subscripts in a `bgeu`, and names in a `jal` that are imported by the header or have one label line
and one export. For each block two labels are issued for every loop and every if with an else in the body, and one
for every other if. So no generated label is defined on two lines of the program. -/
theorem compile_labels_resolve {c : Compilation} (h : (compile program .generated).1 = .ok c)
    (ha : c.assembly = some assembly) : program.LabelsResolve c.context assembly := by
  obtain ⟨sigs, area, _, supply, hsigs, hprepared, _, hcode⟩ := compile_prepared h ha
  constructor
  · intro earlier procedure later hsplit
    obtain ⟨block, hstands⟩ := Program.exists_block hcode hsplit
    refine ⟨block, hstands, block.count_generated, ?_, by rw [block.after_issued, labelCountAll_eq]⟩
    intro i hi l ho
    rcases Procedure.code_target block.emitted (mem_instructions.mp hi) ho with
      ⟨n, hn, hlt, rfl⟩ | ⟨hm, rfl⟩ | ⟨name, hname, hm, rfl⟩
    · exact .generated hn hlt
    · exact hm ▸ .indexError
    · have hp : procedure ∈ sigs.map (·.procedure) := by
        rw [hsigs, hsplit]
        exact List.mem_append_right _ List.mem_cons_self
      obtain ⟨sig, hs, rfl⟩ := List.mem_map.mp hp
      exact hm ▸ hprepared.callee_target hsigs hcode hs hname _ _
  · intro n
    rw [Assembly.count_label]
    exact List.nodup_iff_count_le_one.mp (Program.code_labels_nodup hcode (hprepared.names hsigs)) _

end

/-- A loop around a call and an if with an else, an if without one in each procedure, and calls of the library. -/
def multiplesPrinted : Program where
  position := ⟨1, 1⟩
  declarations := [
    .procedure {
      position := ⟨1, 1⟩
      name := "main"
      parameters := []
      locals := [⟨⟨2, 3⟩, "i", .named ⟨0, ⟨2, 10⟩⟩ "int"⟩]
      body := [
        .whileDo ⟨3, 3⟩
          (.binary ⟨3, ⟨3, 12⟩⟩ (.comparison .lt) (.load ⟨1, ⟨3, 10⟩⟩ (.named ⟨2, ⟨3, 10⟩⟩ "i")) (.literal ⟨4, ⟨3, 14⟩⟩ 9))
          (.block ⟨3, 17⟩ [
            .call ⟨4, 5⟩ "show" [.load ⟨5, ⟨4, 10⟩⟩ (.named ⟨6, ⟨4, 10⟩⟩ "i")],
            .ifElse ⟨5, 5⟩
              (.binary ⟨7, ⟨5, 11⟩⟩ (.comparison .eq) (.load ⟨8, ⟨5, 9⟩⟩ (.named ⟨9, ⟨5, 9⟩⟩ "i"))
                (.literal ⟨10, ⟨5, 13⟩⟩ 4))
              (.assign ⟨6, 7⟩ (.named ⟨11, ⟨6, 7⟩⟩ "i") (.literal ⟨12, ⟨6, 12⟩⟩ 8))
              (.assign ⟨8, 7⟩ (.named ⟨13, ⟨8, 7⟩⟩ "i")
                (.binary ⟨14, ⟨8, 14⟩⟩ (.arithmetic .add) (.load ⟨15, ⟨8, 12⟩⟩ (.named ⟨16, ⟨8, 12⟩⟩ "i"))
                  (.literal ⟨17, ⟨8, 16⟩⟩ 2)))]),
        .ifThen ⟨10, 3⟩
          (.binary ⟨18, ⟨10, 9⟩⟩ (.comparison .gt) (.load ⟨19, ⟨10, 7⟩⟩ (.named ⟨20, ⟨10, 7⟩⟩ "i"))
            (.literal ⟨21, ⟨10, 11⟩⟩ 9))
          (.call ⟨10, 14⟩ "exit" [])] },
    .procedure {
      position := ⟨13, 1⟩
      name := "show"
      parameters := [⟨⟨13, 11⟩, "n", .named ⟨22, ⟨13, 14⟩⟩ "int", false⟩]
      locals := []
      body := [
        .ifThen ⟨14, 3⟩
          (.binary ⟨23, ⟨14, 9⟩⟩ (.comparison .ne) (.load ⟨24, ⟨14, 7⟩⟩ (.named ⟨25, ⟨14, 7⟩⟩ "n"))
            (.literal ⟨26, ⟨14, 11⟩⟩ 0))
          (.call ⟨14, 14⟩ "printi" [.load ⟨27, ⟨14, 21⟩⟩ (.named ⟨28, ⟨14, 21⟩⟩ "n")])] }]

theorem multiplesPrinted_labels_resolve :
    ∃ c assembly, (compile multiplesPrinted .generated).1 = .ok c ∧ c.assembly = some assembly ∧
      multiplesPrinted.LabelsResolve c.context assembly := by
  obtain ⟨c, assembly, hc, ha⟩ := @compile_of_isOk multiplesPrinted (by decide +kernel)
  exact ⟨c, assembly, hc, ha, compile_labels_resolve hc ha⟩

end SplLang
