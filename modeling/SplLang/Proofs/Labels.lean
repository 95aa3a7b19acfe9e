import Mathlib.Algebra.Ring.Nat
import Mathlib.Data.List.Nodup
import SplLang.Proofs.Shapes

/-! Which labels a program defines: the names of its procedures and the generated labels that were
drawn, each of them once. -/
namespace SplLang
open Machine

/-- The label that a line defines. -/
def Machine.Line.label? : Line → Option Label
  | .label l => some l
  | .directive _ | .instruction _ | .blank => none

/-- The labels that are defined, in order. -/
def Machine.Assembly.labels (assembly : Assembly) : List Label := assembly.filterMap (·.label?)

namespace Machine.Assembly

@[simp]
theorem labels_append (first rest : Assembly) :
    labels (first ++ rest) = labels first ++ labels rest := List.filterMap_append

@[simp]
theorem labels_label (l : Label) (rest : Assembly) : labels (.label l :: rest) = l :: labels rest := rfl

@[simp]
theorem labels_instruction (i : Instruction) (rest : Assembly) :
    labels (.instruction i :: rest) = labels rest := rfl

@[simp]
theorem labels_directive (words : String) (rest : Assembly) :
    labels (.directive words :: rest) = labels rest := rfl

@[simp]
theorem labels_blank (rest : Assembly) : labels (.blank :: rest) = labels rest := rfl

@[simp]
theorem labels_nil : labels [] = [] := rfl

end Machine.Assembly
open Machine.Assembly

/-- The generated labels with numbers from the first one up to, but without, the second one. -/
def drawn (first last : Nat) : List Label := (List.range' first (last - first)).map .generated

@[simp]
theorem drawn_self (n : Nat) : drawn n n = [] := by simp [drawn]

theorem drawn_succ {first last : Nat} (h : first < last) :
    drawn first last = .generated first :: drawn (first + 1) last := by
  have hn : last - first = last - (first + 1) + 1 := by omega
  unfold drawn
  rw [hn, List.range'_succ, List.map_cons]

theorem drawn_append {first middle last : Nat} (h : first ≤ middle) (h' : middle ≤ last) :
    drawn first last = drawn first middle ++ drawn middle last := by
  have hsum : last - first = (middle - first) + (last - middle) := by omega
  have hstart : first + (middle - first) = middle := by omega
  unfold drawn
  rw [← List.map_append, hsum, ← List.range'_append_1, hstart]

theorem mem_drawn {first last n : Nat} : .generated n ∈ drawn first last ↔ first ≤ n ∧ n < last := by
  have hlast : n < first + (last - first) ↔ n < last ∨ n < first := by omega
  simp only [drawn, List.mem_map, Label.generated.injEq, exists_eq_right, List.mem_range'_1, hlast]
  omega

theorem exists_of_mem_drawn {first last : Nat} {l : Label} (h : l ∈ drawn first last) :
    ∃ n, l = .generated n ∧ n < last := by
  obtain ⟨n, _, rfl⟩ := List.mem_map.mp h
  exact ⟨n, rfl, (mem_drawn.mp h).2⟩

theorem drawn_nodup {first last : Nat} : (drawn first last).Nodup := by
  apply List.Nodup.map
  · intro m n h
    exact Label.generated.inj h
  · exact List.nodup_range'

section
variable {body : Body} {found : Assembly}

@[simp]
theorem labels_followCode {byReference : Bool} {register : Register} :
    labels (followCode byReference register) = [] := by
  cases byReference <;> rfl

@[simp]
theorem labels_elementCode {scratch : Scratch} {length elementSize : UInt32} :
    labels (elementCode scratch length elementSize) = [] := rfl

mutual

/-- Code for addresses defines no label. -/
theorem Variable.addressCode_labels (v : Variable) {scratch result : Scratch} {found : Assembly}
    (h : (v.addressCode body scratch).Gives result found) : labels found = [] := by
  cases v with
  | named node name =>
    obtain ⟨_, _, _, _, _, rfl⟩ := Variable.named_shape h
    simp
  | element node array index =>
    obtain ⟨_, _, _, _, _, _, _, ha, hi, _, _, rfl⟩ := Variable.element_shape h
    simp [array.addressCode_labels ha, index.valueCode_labels hi]

/-- Code for values defines no label. -/
theorem Expr.valueCode_labels (e : Expr) {scratch result : Scratch} {found : Assembly}
    (h : (e.valueCode body scratch).Gives result found) : labels found = [] := by
  cases e with
  | literal node value =>
    obtain ⟨_, _, rfl⟩ := Expr.literal_shape h
    rfl
  | load node source =>
    obtain ⟨_, hs, rfl⟩ := Expr.load_shape h
    simp [source.addressCode_labels hs]
  | binary node op left right =>
    obtain ⟨_, _, _, _, _, _, hl, hr, _, rfl⟩ := Expr.binary_shape h
    simp [left.valueCode_labels hl, right.valueCode_labels hr]

end

private theorem Expr.conditionCode_labels {condition : Expr} {target : Label} {u : Unit}
    (h : (condition.conditionCode body target).Gives u found) : labels found = [] := by
  obtain ⟨_, _, left, right, _, _, _, _, _, hl, hr, rfl⟩ := Expr.condition_shape h
  simp [left.valueCode_labels hl, right.valueCode_labels hr]

private theorem Expr.argumentCode_labels {argument : Expr} {byReference : Bool} {result : Scratch}
    (h : (argument.argumentCode body byReference).Gives result found) : labels found = [] := by
  cases byReference with
  | false => exact argument.valueCode_labels (Expr.value_argument_shape h)
  | true =>
    obtain ⟨_, source, _, hs⟩ := Expr.reference_argument_shape h
    exact source.addressCode_labels hs

private theorem argumentsCode_labels {callee : Name} {slots : List Slot} {arguments : List Expr} {u : Unit}
    {found : Assembly} (h : (argumentsCode body callee slots arguments).Gives u found) :
    labels found = [] := by
  induction slots generalizing arguments found with
  | nil =>
    rw [no_arguments_shape (.inl rfl) h]
    rfl
  | cons slot slots ih =>
    cases arguments with
    | nil =>
      rw [no_arguments_shape (.inr rfl) h]
      rfl
    | cons argument arguments =>
      obtain ⟨_, _, _, _, _, ha, hr, rfl⟩ := arguments_shape h
      simp [Expr.argumentCode_labels ha, ih hr]

mutual

/-- How many labels the code for a statement needs. -/
def Stmt.labelCount : Stmt → Nat
  | .ifThen _ _ thenPart => 1 + thenPart.labelCount
  | .ifElse _ _ thenPart elsePart => 2 + thenPart.labelCount + elsePart.labelCount
  | .whileDo _ _ body => 2 + body.labelCount
  | .block _ body => labelCountAll body
  | .assign _ _ _ | .call _ _ _ | .empty _ => 0

def labelCountAll : List Stmt → Nat
  | [] => 0
  | stmt :: rest => stmt.labelCount + labelCountAll rest

end

/-- The code defines the labels between two states of the supply, each once. -/
structure Draws (before after : LabelSupply) (count : Nat) (found : Assembly) : Prop where
  issued : after.issued = before.issued + count
  perm : (labels found).Perm (drawn before.issued after.issued)

theorem Draws.nothing {supply : LabelSupply} (h : labels found = []) :
    Draws supply supply 0 found where
  issued := rfl
  perm := by rw [h, drawn_self]

mutual

/-- Code for a statement defines each label that it draws. -/
theorem Stmt.code_draws (stmt : Stmt) {before after : LabelSupply} {found : Assembly}
    (h : (stmt.code body before).Gives after found) : Draws before after stmt.labelCount found := by
  cases stmt with
  | assign position target value =>
    obtain ⟨_, _, _, _, rfl, ht, hv, rfl⟩ := Stmt.assign_shape h
    apply Draws.nothing
    simp [target.addressCode_labels ht, value.valueCode_labels hv]
  | ifThen position condition thenPart =>
    obtain ⟨_, _, hc, ht, rfl⟩ := Stmt.ifThen_shape h
    obtain ⟨hcount, hperm⟩ := thenPart.code_draws ht
    dsimp only at hcount
    refine ⟨by rw [Stmt.labelCount]; omega, ?_⟩
    rw [drawn_succ (by omega : before.issued < after.issued)]
    simp only [labels_append, Expr.conditionCode_labels hc, List.nil_append]
    exact (List.perm_append_singleton _ _).trans (hperm.cons _)
  | ifElse position condition thenPart elsePart =>
    obtain ⟨middle, _, rest, last, hc, ht, he, rfl⟩ := Stmt.ifElse_shape h
    obtain ⟨hcount, hperm⟩ := thenPart.code_draws ht
    obtain ⟨hcount', hperm'⟩ := elsePart.code_draws he
    dsimp only at hcount
    refine ⟨by rw [Stmt.labelCount]; omega, ?_⟩
    rw [drawn_succ (by omega : before.issued < after.issued),
      drawn_succ (by omega : before.issued + 1 < after.issued),
      drawn_append (by omega : before.issued + 2 ≤ middle.issued) (by omega)]
    rw [List.perm_iff_count]
    intro l
    have hthen := hperm.count_eq l
    have helse := hperm'.count_eq l
    simp only [labels_append, labels_instruction, labels_label, labels_nil, List.count_append,
      List.count_cons, List.count_nil, Expr.conditionCode_labels hc] at hthen helse ⊢
    omega
  | whileDo position condition loopBody =>
    obtain ⟨_, _, hc, hb, rfl⟩ := Stmt.whileDo_shape h
    obtain ⟨hcount, hperm⟩ := loopBody.code_draws hb
    dsimp only at hcount
    refine ⟨by rw [Stmt.labelCount]; omega, ?_⟩
    rw [drawn_succ (by omega : before.issued < after.issued),
      drawn_succ (by omega : before.issued + 1 < after.issued)]
    simp only [labels_append, labels_label, List.cons_append, Expr.conditionCode_labels hc,
      List.nil_append]
    exact ((List.perm_append_singleton _ _).trans (hperm.cons _)).cons _
  | call position callee arguments =>
    obtain ⟨_, _, rfl, _, ha, rfl⟩ := Stmt.call_shape h
    apply Draws.nothing
    simp [argumentsCode_labels ha]
  | block position stmts =>
    rw [Stmt.code] at h
    rw [Stmt.labelCount]
    exact codeAll_draws stmts h
  | empty position =>
    rw [Stmt.code] at h
    obtain ⟨rfl, rfl⟩ := Trail.gives_pure.mp h
    exact Draws.nothing rfl

theorem codeAll_draws (stmts : List Stmt) {before after : LabelSupply} {found : Assembly}
    (h : (codeAll body before stmts).Gives after found) :
    Draws before after (labelCountAll stmts) found := by
  cases stmts with
  | nil =>
    rw [codeAll] at h
    obtain ⟨rfl, rfl⟩ := Trail.gives_pure.mp h
    exact Draws.nothing rfl
  | cons stmt stmts =>
    obtain ⟨middle, first, rest, hs, hr, rfl⟩ := codeAll_shape h
    obtain ⟨hcount, hperm⟩ := stmt.code_draws hs
    obtain ⟨hcount', hperm'⟩ := codeAll_draws stmts hr
    refine ⟨by rw [labelCountAll]; omega, ?_⟩
    rw [labels_append, drawn_append (by omega : before.issued ≤ middle.issued) (by omega)]
    exact hperm.append hperm'

end

@[simp]
theorem labels_returnAddressLines {frame : FrameLayout} {mnemonic : Mnemonic} :
    labels (returnAddressLines frame mnemonic) = [] := by
  unfold returnAddressLines
  cases frame.savedReturnAddress <;> rfl

/-- The label that calls of a procedure name. -/
def Procedure.label (procedure : Procedure) : Label := .named procedure.name

/-- How many labels the code for a program needs. -/
def Program.labelCount (program : Program) : Nat :=
  (program.procedures.map fun procedure => labelCountAll procedure.body).sum

theorem Procedure.code_labels {context : Context} {scope : ScopeId} {frame : FrameLayout}
    {procedure : Procedure} {before after : LabelSupply}
    (h : (procedure.code context scope frame before).Gives after found) :
    ∃ inner, Draws before after (labelCountAll procedure.body) inner ∧
      labels found = procedure.label :: labels inner := by
  obtain ⟨inner, hi, rfl⟩ := Procedure.code_shape h
  refine ⟨inner, codeAll_draws _ hi, ?_⟩
  simp [prologue, epilogue, Procedure.label]

/-- Code for procedures defines their names and each label that it draws. -/
theorem proceduresCode_labels {context : Context} {procedures : List Procedure}
    {before after : LabelSupply} {found : Assembly}
    (h : (proceduresCode context before procedures).Gives after found) :
    after.issued = before.issued + (procedures.map fun p => labelCountAll p.body).sum ∧
      (labels found).Perm (procedures.map (·.label) ++ drawn before.issued after.issued) := by
  induction procedures generalizing before found with
  | nil =>
    rw [proceduresCode] at h
    obtain ⟨rfl, rfl⟩ := Trail.gives_pure.mp h
    simp
  | cons procedure procedures ih =>
    obtain ⟨_, _, middle, first, rest, _, hf, hr, rfl⟩ := procedures_shape h
    obtain ⟨inner, ⟨hcount, hperm⟩, hlabels⟩ := Procedure.code_labels hf
    obtain ⟨hcount', hperm'⟩ := ih hr
    rw [List.map_cons, List.sum_cons]
    refine ⟨by omega, ?_⟩
    rw [drawn_append (by omega : before.issued ≤ middle.issued) (by omega), List.perm_iff_count]
    intro l
    have hfirst := hperm.count_eq l
    have hrest := hperm'.count_eq l
    simp only [List.cons_append, labels_blank, labels_append, hlabels, List.map_cons,
      List.count_append, List.count_cons] at hfirst hrest ⊢
    omega

theorem labels_header : labels header = [] := by
  simp [header, labels, Line.label?]

/-- A program defines the names of its procedures and as many labels as it needs. -/
theorem Program.code_labels {context : Context} {program : Program} {supply : LabelSupply}
    (h : (program.code context).Gives supply found) :
    (labels found).Perm (program.procedures.map (·.label) ++ drawn 0 program.labelCount) := by
  obtain ⟨rest, hr, rfl⟩ := Program.code_shape h
  obtain ⟨hcount, hperm⟩ := proceduresCode_labels hr
  have hissued : supply.issued = program.labelCount := by
    rw [hcount, LabelSupply.new, Nat.zero_add, Program.labelCount]
  rw [labels_append, labels_header, List.nil_append, ← hissued]
  exact hperm

/-- No label is defined twice if no name is. -/
theorem Program.code_labels_nodup {context : Context} {program : Program} {supply : LabelSupply}
    (h : (program.code context).Gives supply found) (hn : (program.procedures.map (·.name)).Nodup) :
    (labels found).Nodup := by
  rw [(Program.code_labels h).nodup_iff, List.nodup_append]
  refine ⟨?_, drawn_nodup, ?_⟩
  · have hlabels : program.procedures.map (·.label) = (program.procedures.map (·.name)).map .named := by
      rw [List.map_map]
      rfl
    rw [hlabels]
    exact hn.map fun _ _ he => Label.named.inj he
  · intro l hl l' hl' he
    obtain ⟨procedure, _, rfl⟩ := List.mem_map.mp hl
    obtain ⟨n, rfl, _⟩ := exists_of_mem_drawn hl'
    cases he

end
end SplLang
