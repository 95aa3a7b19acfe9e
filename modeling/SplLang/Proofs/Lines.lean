import SplLang.Proofs.Labels
import SplLang.Proofs.Outgoing

/-! Which lines code is made of. Code for expressions names the routine for subscripts and no other label;
code for statements jumps to the labels that it draws and calls procedures by their names. -/
namespace SplLang
open Machine

/-- A line of the code for a value or an address. -/
inductive Machine.Line.Straight : Line → Prop
  | registers (op : Arithmetic) (target left right : Register) :
      Straight (instr op.mnemonic [target, left, right])
  | constant (op : Arithmetic) (target left : Register) (value : Int) :
      Straight (instr op.mnemonic [target, left, .imm value])
  | load (target base : Register) (offset : Int) : Straight (instr .ldw [target, base, .imm offset])
  | check (index bound : Register) : Straight (instr .bgeu [index, bound, Label.indexError])

/-- A line of the code for statements that call the given procedures and draw the labels with numbers from the
first one up to, but without, the second one. -/
inductive Machine.Line.InBody (first last : Nat) (callees : List Name) : Line → Prop
  | straight {line : Line} : line.Straight → InBody first last callees line
  | store (value base : Register) (offset : Int) :
      InBody first last callees (instr .stw [value, base, .imm offset])
  | branch (comparison : Comparison) (left right : Register) {n : Nat} : first ≤ n → n < last →
      InBody first last callees (instr comparison.branch [left, right, Label.generated n])
  | jump {n : Nat} : first ≤ n → n < last → InBody first last callees (instr .j [Label.generated n])
  | call {name : Name} : name ∈ callees → InBody first last callees (instr .jal [Label.named name])
  | label {n : Nat} : first ≤ n → n < last → InBody first last callees (.label (.generated n))

section
variable {body : Body}

private theorem followCode_straight {byReference : Bool} {register : Register} :
    ∀ line ∈ followCode byReference register, line.Straight := by
  cases byReference with
  | false => exact fun _ h => absurd h List.not_mem_nil
  | true => exact List.forall_mem_singleton.mpr (.load register register 0)

private theorem elementCode_straight {scratch : Scratch} {length elementSize : UInt32} :
    ∀ line ∈ elementCode scratch length elementSize, line.Straight := by
  unfold elementCode
  simp only [List.forall_mem_cons]
  exact ⟨.constant .add _ _ _, .check _ _, .constant .mul _ _ _, .registers .add _ _ _, fun _ h => absurd h List.not_mem_nil⟩

mutual

theorem Variable.addressCode_straight (v : Variable) {scratch result : Scratch} {found : Assembly}
    (h : (v.addressCode body scratch).Gives result found) : ∀ line ∈ found, line.Straight := by
  cases v with
  | named node name =>
    obtain ⟨offset, _, _, _, _, rfl⟩ := Variable.named_shape h
    exact List.forall_mem_cons.mpr ⟨.constant .add _ _ _, followCode_straight⟩
  | element node array index =>
    obtain ⟨_, _, _, _, _, _, _, ha, hi, _, _, rfl⟩ := Variable.element_shape h
    simp only [List.forall_mem_append]
    exact ⟨⟨array.addressCode_straight ha, index.valueCode_straight hi⟩, elementCode_straight⟩

theorem Expr.valueCode_straight (e : Expr) {scratch result : Scratch} {found : Assembly}
    (h : (e.valueCode body scratch).Gives result found) : ∀ line ∈ found, line.Straight := by
  cases e with
  | literal node value =>
    obtain ⟨_, _, rfl⟩ := Expr.literal_shape h
    exact List.forall_mem_singleton.mpr (.constant .add _ _ _)
  | load node source =>
    obtain ⟨_, hs, rfl⟩ := Expr.load_shape h
    simp only [List.forall_mem_append]
    exact ⟨source.addressCode_straight hs, List.forall_mem_singleton.mpr (.load _ _ _)⟩
  | binary node op left right =>
    obtain ⟨arithmetic, _, _, _, _, _, hl, hr, _, rfl⟩ := Expr.binary_shape h
    simp only [List.forall_mem_append]
    exact ⟨⟨left.valueCode_straight hl, right.valueCode_straight hr⟩,
      List.forall_mem_singleton.mpr (.registers arithmetic _ _ _)⟩

end

theorem Expr.argumentCode_straight {argument : Expr} {byReference : Bool} {result : Scratch} {found : Assembly}
    (h : (argument.argumentCode body byReference).Gives result found) : ∀ line ∈ found, line.Straight := by
  cases byReference with
  | false => exact argument.valueCode_straight (Expr.value_argument_shape h)
  | true =>
    obtain ⟨_, source, rfl, hs⟩ := Expr.reference_argument_shape h
    exact source.addressCode_straight hs

end

namespace Machine.Line.InBody
variable {first last first' last' : Nat} {callees others : List Name} {line : Line}

theorem mono (h : line.InBody first last callees) (hf : first' ≤ first) (hl : last ≤ last')
    (hc : ∀ name ∈ callees, name ∈ others) : line.InBody first' last' others := by
  cases h with
  | straight hs => exact .straight hs
  | store value base offset => exact .store value base offset
  | branch comparison left right hn hlt => exact .branch comparison left right (by omega) (by omega)
  | jump hn hlt => exact .jump (by omega) (by omega)
  | call hm => exact .call (hc _ hm)
  | label hn hlt => exact .label (by omega) (by omega)

end Machine.Line.InBody

section
variable {body : Body} {found : Assembly} {first last : Nat} {callees : List Name}

private theorem Expr.conditionCode_lines {condition : Expr} {n : Nat} {u : Unit} (hn : first ≤ n) (hl : n < last)
    (h : (condition.conditionCode body (.generated n)).Gives u found) :
    ∀ line ∈ found, line.InBody first last callees := by
  obtain ⟨_, comparison, left, right, _, _, _, _, _, hleft, hright, rfl⟩ := Expr.condition_shape h
  simp only [List.forall_mem_append]
  refine ⟨⟨fun line hm => ?_, fun line hm => ?_⟩, List.forall_mem_singleton.mpr (.branch _ _ _ hn hl)⟩
  · exact .straight (left.valueCode_straight hleft line hm)
  · exact .straight (right.valueCode_straight hright line hm)

theorem argumentsCode_lines {callee : Name} (slots : List Slot) (arguments : List Expr) {u : Unit}
    {found : Assembly} (h : (argumentsCode body callee slots arguments).Gives u found) :
    ∀ line ∈ found, line.InBody first last callees := by
  induction slots generalizing arguments found with
  | nil =>
    rw [no_arguments_shape (.inl rfl) h]
    exact fun _ hm => absurd hm List.not_mem_nil
  | cons slot slots ih =>
    cases arguments with
    | nil =>
      rw [no_arguments_shape (.inr rfl) h]
      exact fun _ hm => absurd hm List.not_mem_nil
    | cons argument arguments =>
      obtain ⟨offset, _, _, _, _, ha, hr, rfl⟩ := arguments_shape h
      rw [List.forall_mem_append, List.forall_mem_cons]
      exact ⟨fun line hm => .straight (Expr.argumentCode_straight ha line hm), .store _ _ _, ih arguments hr⟩

mutual

/-- The lines of the code for a statement. -/
theorem Stmt.code_lines (stmt : Stmt) {before after : LabelSupply} {found : Assembly}
    (h : (stmt.code body before).Gives after found) :
    ∀ line ∈ found, line.InBody before.issued after.issued stmt.callees := by
  have hdrawn := (stmt.code_draws h).issued
  cases stmt with
  | assign position target value =>
    obtain ⟨_, _, _, _, rfl, ht, hv, rfl⟩ := Stmt.assign_shape h
    simp only [List.forall_mem_append]
    refine ⟨⟨fun line hm => ?_, fun line hm => ?_⟩, List.forall_mem_singleton.mpr (.store _ _ _)⟩
    · exact .straight (target.addressCode_straight ht line hm)
    · exact .straight (value.valueCode_straight hv line hm)
  | ifThen position condition thenPart =>
    obtain ⟨_, _, hc, ht, rfl⟩ := Stmt.ifThen_shape h
    rw [Stmt.labelCount] at hdrawn
    simp only [List.forall_mem_append]
    refine ⟨⟨Expr.conditionCode_lines (Nat.le_refl _) (by omega) hc, fun line hm => ?_⟩,
      List.forall_mem_singleton.mpr (.label (Nat.le_refl _) (by omega))⟩
    exact (thenPart.code_lines ht line hm).mono (Nat.le_succ _) (Nat.le_refl _) fun _ hn => hn
  | ifElse position condition thenPart elsePart =>
    obtain ⟨middle, _, _, _, hc, ht, he, rfl⟩ := Stmt.ifElse_shape h
    have hthen := (thenPart.code_draws ht).issued
    have helse := (elsePart.code_draws he).issued
    dsimp only at hthen
    simp only [List.forall_mem_append, List.forall_mem_cons]
    refine ⟨⟨⟨⟨Expr.conditionCode_lines (Nat.le_refl _) (by omega) hc, fun line hm => ?_⟩,
      .jump (by omega) (by omega), .label (Nat.le_refl _) (by omega), fun _ hm => absurd hm List.not_mem_nil⟩,
      fun line hm => ?_⟩, .label (by omega) (by omega), fun _ hm => absurd hm List.not_mem_nil⟩
    · exact (thenPart.code_lines ht line hm).mono (by dsimp only; omega) (by omega)
        fun _ hn => List.mem_append_left _ hn
    · exact (elsePart.code_lines he line hm).mono (by omega) (Nat.le_refl _)
        fun _ hn => List.mem_append_right _ hn
  | whileDo position condition loopBody =>
    obtain ⟨_, _, hc, hb, rfl⟩ := Stmt.whileDo_shape h
    rw [Stmt.labelCount] at hdrawn
    simp only [List.forall_mem_append, List.forall_mem_cons]
    refine ⟨⟨⟨.label (Nat.le_refl _) (by omega), Expr.conditionCode_lines (by omega) (by omega) hc⟩,
      fun line hm => ?_⟩, .jump (Nat.le_refl _) (by omega), .label (by omega) (by omega),
      fun _ hm => absurd hm List.not_mem_nil⟩
    exact (loopBody.code_lines hb line hm).mono (by dsimp only; omega) (Nat.le_refl _) fun _ hn => hn
  | call position callee arguments =>
    obtain ⟨_, _, rfl, _, ha, rfl⟩ := Stmt.call_shape h
    rw [List.forall_mem_append]
    exact ⟨argumentsCode_lines _ _ ha, List.forall_mem_singleton.mpr (.call (List.mem_singleton_self _))⟩
  | block position stmts =>
    rw [Stmt.code] at h
    exact codeAll_lines stmts h
  | empty position =>
    rw [Stmt.code] at h
    rw [(Trail.gives_pure.mp h).2]
    exact fun _ hm => absurd hm List.not_mem_nil

theorem codeAll_lines (stmts : List Stmt) {before after : LabelSupply} {found : Assembly}
    (h : (codeAll body before stmts).Gives after found) :
    ∀ line ∈ found, line.InBody before.issued after.issued (allCallees stmts) := by
  cases stmts with
  | nil =>
    rw [codeAll] at h
    rw [(Trail.gives_pure.mp h).2]
    exact fun _ hm => absurd hm List.not_mem_nil
  | cons stmt stmts =>
    obtain ⟨middle, _, _, hs, hr, rfl⟩ := codeAll_shape h
    have hfirst := (stmt.code_draws hs).issued
    have hrest := (codeAll_draws stmts hr).issued
    rw [List.forall_mem_append]
    constructor
    · intro line hm
      exact (stmt.code_lines hs line hm).mono (Nat.le_refl _) (by omega) fun _ hn => List.mem_append_left _ hn
    · intro line hm
      exact (codeAll_lines stmts hr line hm).mono (by omega) (Nat.le_refl _) fun _ hn => List.mem_append_right _ hn

end
end
end SplLang
