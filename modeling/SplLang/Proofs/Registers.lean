import SplLang.Proofs.Consistency
import SplLang.Proofs.Execution

/-! How many scratch registers code takes. It is known beforehand from the tree, and it decides whether
there is code at all. -/
namespace SplLang
open Machine

namespace Machine

/-- The register that an instruction writes. -/
def Instruction.written? : Instruction → Option Register
  | ⟨.add, .reg r :: _⟩ | ⟨.sub, .reg r :: _⟩ | ⟨.mul, .reg r :: _⟩ | ⟨.div, .reg r :: _⟩
  | ⟨.ldw, .reg r :: _⟩ => some r
  | ⟨.jal, _⟩ => some .returnAddress
  | _ => none

/-- What computes a word writes it to its first operand. -/
theorem Mnemonic.written?_of_compute? {m : Mnemonic} {a b w : Word} (h : m.compute? a b = some w)
    (r : Register) (rest : List Operand) : Instruction.written? ⟨m, .reg r :: rest⟩ = some r := by
  cases m <;> first | rfl | cases h

/-- All other registers keep their words. -/
theorem Instruction.execute?_registers {World : Type} {address : Label → Word} {s after : State World}
    {i : Instruction} (h : i.execute? address s = some after) {n : Nat} (hn : i.written? ≠ some ⟨n⟩) :
    after.registers n = s.registers n := by
  have hset : ∀ (r : Register) (w : Word), r ≠ ⟨n⟩ → (s.set r w).registers n = s.registers n := by
    intro r w hr
    apply Function.update_of_ne
    rintro rfl
    exact hr rfl
  unfold execute? at h
  split at h
  · dsimp only at h
    split at h <;> cases h
    exact hset _ _ fun he => hn (congrArg some he)
  · dsimp only at h
    split at h <;> cases h
    rfl
  · cases h
    rfl
  · cases h
    exact hset _ _ fun he => hn (congrArg some he)
  · cases h
    rfl
  · obtain ⟨taken, _, rfl⟩ := Option.map_eq_some_iff.mp h
    cases taken <;> rfl
  · obtain ⟨w, hw, rfl⟩ := Option.map_eq_some_iff.mp h
    exact hset _ _ fun he => hn ((Mnemonic.written?_of_compute? hw _ _).trans (congrArg some he))
  · obtain ⟨w, hw, rfl⟩ := Option.map_eq_some_iff.mp h
    exact hset _ _ fun he => hn ((Mnemonic.written?_of_compute? hw _ _).trans (congrArg some he))
  · cases h

/-- The code writes only registers with a number from `low` up to one under `high`. -/
def Assembly.WritesWithin (low high : Nat) (code : Assembly) : Prop :=
  ∀ i ∈ code.instructions, ∀ r, i.written? = some r → low ≤ r.number ∧ r.number < high

namespace Assembly.WritesWithin
variable {low low' high high' : Nat} {first rest : Assembly}

theorem append (h : first.WritesWithin low high) (h' : rest.WritesWithin low high) :
    Assembly.WritesWithin low high (first ++ rest) := by
  intro i hi
  rw [instructions_append] at hi
  exact (List.mem_append.mp hi).elim (h i) (h' i)

theorem mono (h : first.WritesWithin low high) (hl : low' ≤ low) (hh : high ≤ high') :
    first.WritesWithin low' high' := by
  intro i hi r hr
  obtain ⟨hlow, hhigh⟩ := h i hi r hr
  exact ⟨Nat.le_trans hl hlow, Nat.lt_of_lt_of_le hhigh hh⟩

end Assembly.WritesWithin

theorem Assembly.writesWithin_nil {low high : Nat} : Assembly.WritesWithin low high [] := by
  intro i hi
  cases hi

theorem Assembly.writesWithin_instr {low high : Nat} {m : Mnemonic} {operands : List Operand} {rest : Assembly}
    (h : ∀ r, Instruction.written? ⟨m, operands⟩ = some r → low ≤ r.number ∧ r.number < high)
    (hr : rest.WritesWithin low high) : Assembly.WritesWithin low high (instr m operands :: rest) := by
  intro i hi
  rcases List.mem_cons.mp hi with rfl | hi
  · exact h
  · exact hr i hi

end Machine

namespace Emit
variable {α : Type} {scratch : Scratch}

@[simp]
theorem result_instruction_bind {m : Mnemonic} {operands : List Operand} {next : Unit → Emit α} :
    (Emit.instruction m operands >>= next).result = (next ()).result := rfl

@[simp]
theorem result_label_bind {l : Label} {next : Unit → Emit α} :
    (Emit.label l >>= next).result = (next ()).result := rfl

@[simp]
theorem result_follow_bind {byReference : Bool} {next : Unit → Emit α} :
    (Emit.follow byReference scratch >>= next).result = (next ()).result := by
  cases byReference <;> rfl

private theorem result_push_bind_eq_ok {position : Position} {next : Scratch → Emit α} {a : α} :
    (Emit.push scratch position >>= next).result = .ok a ↔
      scratch.inUse < Scratch.capacity ∧ (next scratch.next).result = .ok a := by
  rw [Trail.result_bind_eq_ok]
  simp [Emit.push, Trail.result_expect_eq_ok, Scratch.push?_eq_some_iff, Scratch.next]

end Emit

mutual

/-- How many scratch registers the code takes that leaves the address of a variable. A subscript takes
a third one for the length of its array. -/
def Variable.need : Variable → Nat
  | .named _ _ => 1
  | .element _ array index => max (max array.need (1 + index.need)) 3

/-- How many scratch registers the code takes that leaves the value of an expression, or that compares
the sides of a condition. -/
def Expr.need : Expr → Nat
  | .literal _ _ => 1
  | .load _ source => source.need
  | .binary _ _ left right => max left.need (1 + right.need)

end

private theorem Variable.need_pos (v : Variable) : 0 < v.need := by
  cases v with
  | named node name => exact Nat.one_pos
  | element node array index =>
    rw [Variable.need]
    omega

section
variable {body : Body}

mutual

/-- An address has code if enough scratch registers are left. -/
theorem Variable.addressCode_eq_ok (v : Variable) (h : v.Ready body) {scratch result : Scratch} :
    (v.addressCode body scratch).result = .ok result ↔
      scratch.inUse + v.need ≤ Scratch.capacity ∧ result = scratch.next := by
  cases v with
  | named node name =>
    obtain ⟨entry, offset, he, ho⟩ := h
    have hplace : body.place? node.position name = pure (offset, entry.byReference) := by
      simp only [Body.place?, he, ho, Trail.expect, pure_bind]
    rw [Variable.addressCode, hplace, pure_bind, Emit.result_push_bind_eq_ok, Emit.result_instruction_bind,
      Emit.result_follow_bind, Trail.result_pure, Except.ok.injEq, Variable.need, Nat.succ_le_iff, eq_comm]
  | element node array index =>
    obtain ⟨harray, hindex, type, element, length, ht, ha⟩ := h
    have hnoted : body.array? node.position array = pure (element, length) := by
      simp only [Body.array?, ht, ha, Option.bind_some, Trail.expect]
    rw [Variable.addressCode, hnoted, pure_bind]
    rw [Trail.result_bind_eq_ok_of (array.addressCode_eq_ok harray),
      Trail.result_bind_eq_ok_of (index.valueCode_eq_ok hindex), Emit.result_push_bind_eq_ok]
    simp only [Emit.result_instruction_bind, Trail.result_pure, Except.ok.injEq, Variable.need]
    have hnext : scratch.next.inUse = scratch.inUse + 1 := rfl
    have hlast : scratch.next.next.inUse = scratch.inUse + 2 := rfl
    rw [show scratch.next.next.pop = scratch.next from rfl, eq_comm (a := scratch.next), ← and_assoc, ← and_assoc]
    exact and_congr_left fun _ => by omega

/-- A value has code if enough scratch registers are left. -/
theorem Expr.valueCode_eq_ok (e : Expr) (h : e.ValueReady body) {scratch result : Scratch} :
    (e.valueCode body scratch).result = .ok result ↔
      scratch.inUse + e.need ≤ Scratch.capacity ∧ result = scratch.next := by
  cases e with
  | literal node value =>
    rw [Expr.valueCode, Emit.result_push_bind_eq_ok, Emit.result_instruction_bind, Trail.result_pure,
      Except.ok.injEq, Expr.need, Nat.succ_le_iff, eq_comm]
  | load node source =>
    rw [Expr.valueCode, Trail.result_bind_eq_ok_of (source.addressCode_eq_ok h), Emit.result_instruction_bind,
      Trail.result_pure, Except.ok.injEq, Expr.need, eq_comm]
  | binary node op left right =>
    obtain ⟨hop, hleft, hright⟩ := h
    cases op with
    | comparison op => cases hop
    | arithmetic op =>
      rw [Expr.valueCode, Trail.result_bind_eq_ok_of (left.valueCode_eq_ok hleft),
        Trail.result_bind_eq_ok_of (right.valueCode_eq_ok hright), Emit.result_instruction_bind, Trail.result_pure,
        Except.ok.injEq, Expr.need]
      have hnext : scratch.next.inUse = scratch.inUse + 1 := rfl
      rw [show scratch.next.next.pop = scratch.next from rfl, eq_comm (a := scratch.next), ← and_assoc]
      exact and_congr_left fun _ => by omega

end

/-- One instruction that writes the scratch register taken last, or the one before it. -/
private theorem writesWithin_scratch {low high k : Nat} {m : Mnemonic} {operands : List Operand} {r : Register}
    {rest : Assembly} (hw : Instruction.written? ⟨m, operands⟩ = some r) (hr : r.number = Scratch.first + k)
    (hlow : low ≤ k) (hhigh : k < high)
    (h : rest.WritesWithin (Scratch.first + low) (Scratch.first + high)) :
    Assembly.WritesWithin (Scratch.first + low) (Scratch.first + high) (instr m operands :: rest) := by
  apply Assembly.writesWithin_instr _ h
  intro written hwritten
  rw [hw] at hwritten
  cases hwritten
  omega

mutual

/-- The code of an address writes no more scratch registers than it needs. -/
theorem Variable.addressCode_writes (v : Variable) {scratch result : Scratch} {found : Assembly}
    (h : (v.addressCode body scratch).Gives result found) :
    Assembly.WritesWithin (Scratch.first + scratch.inUse) (Scratch.first + (scratch.inUse + v.need)) found := by
  cases v with
  | named node name =>
    obtain ⟨offset, byReference, -, -, -, rfl⟩ := Variable.named_shape h
    apply writesWithin_scratch rfl rfl (Nat.le_refl _) (Nat.lt_succ_self _)
    cases byReference with
    | false => exact Assembly.writesWithin_nil
    | true => exact writesWithin_scratch rfl rfl (Nat.le_refl _) (Nat.lt_succ_self _) Assembly.writesWithin_nil
  | element node array index =>
    obtain ⟨element, length, middle, last, first, rest, -, ha, hi, -, -, rfl⟩ := Variable.element_shape h
    obtain rfl := array.addressCode_scratch ha
    obtain rfl := index.valueCode_scratch hi
    have hfirst := array.addressCode_writes ha
    have hrest := index.valueCode_writes hi
    have hnext : scratch.next.inUse = scratch.inUse + 1 := rfl
    rw [Variable.need]
    refine ((hfirst.mono (Nat.le_refl _) (by omega)).append (hrest.mono (by omega) (by omega))).append ?_
    -- The length goes to the third register; the branch that compares the subscript with it writes none.
    apply writesWithin_scratch (k := scratch.inUse + 2) rfl rfl (by omega) (by omega)
    apply Assembly.writesWithin_instr (fun _ hw => by cases hw)
    apply writesWithin_scratch (k := scratch.inUse + 1) rfl rfl (by omega) (by omega)
    exact writesWithin_scratch (k := scratch.inUse) rfl rfl (by omega) (by omega) Assembly.writesWithin_nil

/-- The code of a value writes no more scratch registers than it needs. -/
theorem Expr.valueCode_writes (e : Expr) {scratch result : Scratch} {found : Assembly}
    (h : (e.valueCode body scratch).Gives result found) :
    Assembly.WritesWithin (Scratch.first + scratch.inUse) (Scratch.first + (scratch.inUse + e.need)) found := by
  cases e with
  | literal node value =>
    obtain ⟨-, -, rfl⟩ := Expr.literal_shape h
    exact writesWithin_scratch rfl rfl (Nat.le_refl _) (Nat.lt_succ_self _) Assembly.writesWithin_nil
  | load node source =>
    obtain ⟨first, hs, rfl⟩ := Expr.load_shape h
    obtain rfl := source.addressCode_scratch hs
    have hfirst := source.addressCode_writes hs
    rw [Expr.need]
    exact hfirst.append (writesWithin_scratch (k := scratch.inUse) rfl rfl (Nat.le_refl _)
      (Nat.lt_add_of_pos_right source.need_pos) Assembly.writesWithin_nil)
  | binary node op left right =>
    obtain ⟨arithmetic, middle, last, first, rest, -, hl, hr, -, rfl⟩ := Expr.binary_shape h
    obtain rfl := left.valueCode_scratch hl
    obtain rfl := right.valueCode_scratch hr
    have hfirst := left.valueCode_writes hl
    have hrest := right.valueCode_writes hr
    have hnext : scratch.next.inUse = scratch.inUse + 1 := rfl
    rw [Expr.need]
    refine ((hfirst.mono (Nat.le_refl _) (by omega)).append (hrest.mono (by omega) (by omega))).append ?_
    have hwritten : Instruction.written? ⟨arithmetic.mnemonic, [scratch.next.next.second, scratch.next.next.second,
        scratch.next.next.top]⟩ = some scratch.next.next.second := by
      cases arithmetic <;> rfl
    exact writesWithin_scratch (k := scratch.inUse) hwritten rfl (Nat.le_refl _) (by omega) Assembly.writesWithin_nil

end

/-- What code takes that is generated with some scratch registers in use: if as many as it needs are left, it
takes one more of them into use and writes no others; if not, they run out. -/
structure Demands (need : Nat) (code : Scratch → Emit Scratch) : Prop where
  enough : ∀ scratch, scratch.inUse + need ≤ Scratch.capacity →
    ∃ found, (code scratch).Gives ⟨scratch.inUse + 1⟩ found ∧
      Assembly.WritesWithin (Scratch.first + scratch.inUse) (Scratch.first + (scratch.inUse + need)) found
  exhausted : ∀ scratch, Scratch.capacity < scratch.inUse + need →
    ∃ d, (code scratch).result = .error d ∧ d.cause = .registersExhausted

private theorem demands_of {need : Nat} {code : Scratch → Emit Scratch}
    (hok : ∀ {scratch result}, (code scratch).result = .ok result ↔
      scratch.inUse + need ≤ Scratch.capacity ∧ result = scratch.next)
    (hwrites : ∀ {scratch result found}, (code scratch).Gives result found →
      Assembly.WritesWithin (Scratch.first + scratch.inUse) (Scratch.first + (scratch.inUse + need)) found)
    (hfails : ∀ scratch, Trail.FailsOnly Exhausted (code scratch)) : Demands need code where
  enough := by
    intro scratch hle
    have hgives := Trail.gives_of_ok (hok.mpr ⟨hle, rfl⟩)
    exact ⟨_, hgives, hwrites hgives⟩
  exhausted := by
    intro scratch hlt
    cases hresult : (code scratch).result with
    | ok result =>
      obtain ⟨hle, -⟩ := hok.mp hresult
      omega
    | error d => exact ⟨d, rfl, hfails scratch d hresult⟩

private theorem Variable.demands {v : Variable} (h : v.Ready body) :
    Demands v.need fun scratch => v.addressCode body scratch :=
  demands_of (v.addressCode_eq_ok h) v.addressCode_writes fun scratch => v.addressCode_failsOnly h scratch

private theorem Expr.demands {e : Expr} (h : e.ValueReady body) :
    Demands e.need fun scratch => e.valueCode body scratch :=
  demands_of (e.valueCode_eq_ok h) e.valueCode_writes fun scratch => e.valueCode_failsOnly h scratch

/-- An expression other than a comparison. -/
def Expr.IsValue : Expr → Prop
  | .binary _ op _ _ => op.isArithmetic
  | .literal _ _ | .load _ _ => True

/-- The address of a variable and the value of an expression take as many scratch registers as they need. -/
def TreeNode.Demands (body : Body) : TreeNode → Prop
  | .place v => SplLang.Demands v.need fun scratch => v.addressCode body scratch
  | .value e => e.IsValue → SplLang.Demands e.need fun scratch => e.valueCode body scratch

mutual

private theorem Variable.nodes_demand (v : Variable) (h : v.Ready body) : ∀ node ∈ v.nodes, node.Demands body := by
  cases v with
  | named node name =>
    intro n hn
    cases List.mem_singleton.mp hn
    exact Variable.demands h
  | element node array index =>
    have hself := Variable.demands h
    obtain ⟨harray, hindex, -⟩ := h
    simp only [Variable.nodes, List.forall_mem_append, List.forall_mem_singleton]
    exact ⟨⟨index.nodes_demand hindex, array.nodes_demand harray⟩, hself⟩

private theorem Expr.nodes_demand (e : Expr) (h : e.ValueReady body) : ∀ node ∈ e.nodes, node.Demands body := by
  cases e with
  | literal node value =>
    intro n hn
    cases List.mem_singleton.mp hn
    exact fun _ => Expr.demands h
  | load node source =>
    have hself := Expr.demands h
    simp only [Expr.nodes, List.forall_mem_append, List.forall_mem_singleton]
    exact ⟨source.nodes_demand h, fun _ => hself⟩
  | binary node op left right =>
    have hself := Expr.demands h
    obtain ⟨-, hleft, hright⟩ := h
    simp only [Expr.nodes, List.forall_mem_append, List.forall_mem_singleton]
    exact ⟨⟨left.nodes_demand hleft, right.nodes_demand hright⟩, fun _ => hself⟩

end

private theorem Expr.condition_nodes_demand {condition : Expr} (h : condition.ConditionReady body) :
    ∀ node ∈ condition.nodes, node.Demands body := by
  cases condition with
  | literal node value => cases h
  | load node source => cases h
  | binary node op left right =>
    obtain ⟨hop, hleft, hright⟩ := h
    simp only [Expr.nodes, List.forall_mem_append, List.forall_mem_singleton]
    refine ⟨⟨left.nodes_demand hleft, right.nodes_demand hright⟩, fun hvalue => ?_⟩
    have harithmetic : op.isArithmetic := hvalue
    simp [Operator.isArithmetic, hop] at harithmetic

private theorem argument_nodes_demand {arguments : List Expr} {slots : List Slot}
    (h : List.Forall₂ (Expr.ArgumentReady body) arguments slots) :
    ∀ node ∈ arguments.flatMap (·.nodes), node.Demands body := by
  induction h with
  | nil => simp
  | @cons argument _ _ _ ha _ ih =>
    rw [List.flatMap_cons, List.forall_mem_append]
    exact ⟨argument.nodes_demand ha.1, ih⟩

mutual

private theorem Stmt.nodes_demand (s : Stmt) (h : s.Ready body) : ∀ node ∈ s.nodes, node.Demands body := by
  cases s with
  | assign position target value =>
    exact List.forall_mem_append.mpr ⟨target.nodes_demand h.1, value.nodes_demand h.2⟩
  | ifThen position condition thenPart =>
    exact List.forall_mem_append.mpr ⟨Expr.condition_nodes_demand h.1, thenPart.nodes_demand h.2⟩
  | ifElse position condition thenPart elsePart =>
    refine List.forall_mem_append.mpr ⟨List.forall_mem_append.mpr ⟨?_, thenPart.nodes_demand h.2.1⟩,
      elsePart.nodes_demand h.2.2⟩
    exact Expr.condition_nodes_demand h.1
  | whileDo position condition loopBody =>
    exact List.forall_mem_append.mpr ⟨Expr.condition_nodes_demand h.1, loopBody.nodes_demand h.2⟩
  | call position callee arguments =>
    obtain ⟨_, -, harguments⟩ := h
    exact argument_nodes_demand harguments
  | block position stmts => exact allNodes_demand stmts h
  | empty position => simp [Stmt.nodes]

private theorem allNodes_demand (stmts : List Stmt) (h : AllReady body stmts) :
    ∀ node ∈ allNodes stmts, node.Demands body := by
  cases stmts with
  | nil => simp [allNodes]
  | cons stmt rest => exact List.forall_mem_append.mpr ⟨stmt.nodes_demand h.1, allNodes_demand rest h.2⟩

end

mutual

/-- What the code of a statement needs, one number for each assignment, condition and argument in it. -/
def Stmt.needs : Stmt → List Nat
  | .assign _ target value => [max target.need (1 + value.need)]
  | .ifThen _ condition thenPart => condition.need :: thenPart.needs
  | .ifElse _ condition thenPart elsePart => condition.need :: (thenPart.needs ++ elsePart.needs)
  | .whileDo _ condition loopBody => condition.need :: loopBody.needs
  | .call _ _ arguments => arguments.map (·.need)
  | .block _ stmts => allNeeds stmts
  | .empty _ => []

def allNeeds : List Stmt → List Nat
  | [] => []
  | stmt :: rest => stmt.needs ++ allNeeds rest

end

/-- Enough scratch registers for each of the needs. -/
def Spared (needs : List Nat) : Prop := ∀ need ∈ needs, need ≤ Scratch.capacity

@[simp]
theorem spared_nil : Spared [] := by simp [Spared]

@[simp]
theorem spared_cons {need : Nat} {needs : List Nat} :
    Spared (need :: needs) ↔ need ≤ Scratch.capacity ∧ Spared needs := List.forall_mem_cons

@[simp]
theorem spared_append {first rest : List Nat} : Spared (first ++ rest) ↔ Spared first ∧ Spared rest :=
  List.forall_mem_append

private theorem Expr.conditionCode_eq_ok {condition : Expr} (h : condition.ConditionReady body) {target : Label} :
    (condition.conditionCode body target).result = .ok () ↔ condition.need ≤ Scratch.capacity := by
  cases condition with
  | literal node value => cases h
  | load node source => cases h
  | binary node op left right =>
    obtain ⟨hop, hleft, hright⟩ := h
    cases op with
    | arithmetic op => cases hop
    | comparison op =>
      rw [Expr.conditionCode, Trail.result_bind_eq_ok_of (left.valueCode_eq_ok hleft),
        Trail.result_bind_eq_ok_of (right.valueCode_eq_ok hright), Expr.need]
      have hempty : Scratch.empty.inUse = 0 := rfl
      have hnext : Scratch.empty.next.inUse = 1 := rfl
      rw [← and_assoc]
      exact (and_iff_left rfl).trans (by omega)

private theorem Expr.argumentCode_eq_ok {argument : Expr} {slot : Slot} (h : argument.ArgumentReady body slot)
    {result : Scratch} : (argument.argumentCode body slot.byReference).result = .ok result ↔
      argument.need ≤ Scratch.capacity ∧ result = Scratch.empty.next := by
  obtain ⟨hvalue, hvariable, -⟩ := h
  rw [← Nat.zero_add argument.need]
  cases hr : slot.byReference with
  | false => exact argument.valueCode_eq_ok hvalue
  | true =>
    cases argument with
    | load node source =>
      rw [Expr.need]
      exact source.addressCode_eq_ok hvalue
    | literal node value => cases hvariable hr
    | binary node op left right => cases hvariable hr

private theorem argumentsCode_eq_ok {callee : Name} {arguments : List Expr} {slots : List Slot}
    (h : List.Forall₂ (Expr.ArgumentReady body) arguments slots) :
    (argumentsCode body callee slots arguments).result = .ok () ↔ Spared (arguments.map (·.need)) := by
  induction h with
  | nil => simp [argumentsCode]
  | @cons argument slot _ _ ha _ ih =>
    obtain ⟨offset, ho⟩ := Option.isSome_iff_exists.mp ha.2.2
    rw [argumentsCode, Trail.result_bind_eq_ok_of (Expr.argumentCode_eq_ok ha), ho]
    rw [List.map_cons, spared_cons]
    exact and_congr_right fun _ => ih

mutual

/-- A statement has code if all of its needs are met. -/
theorem Stmt.code_succeeds (s : Stmt) (h : s.Ready body) (labels : LabelSupply) :
    (∃ after, (s.code body labels).result = .ok after) ↔ Spared s.needs := by
  cases s with
  | assign position target value =>
    obtain ⟨htarget, hvalue⟩ := h
    rw [Stmt.code]
    simp only [Trail.result_bind_eq_ok_of (target.addressCode_eq_ok htarget),
      Trail.result_bind_eq_ok_of (value.valueCode_eq_ok hvalue), Emit.result_instruction_bind, Trail.result_pure,
      Except.ok.injEq, exists_and_left, exists_eq', and_true]
    have hempty : Scratch.empty.inUse = 0 := rfl
    have hnext : Scratch.empty.next.inUse = 1 := rfl
    rw [Stmt.needs, spared_cons]
    simp only [spared_nil, and_true]
    omega
  | ifThen position condition thenPart =>
    obtain ⟨hcondition, hthen⟩ := h
    simp only [Stmt.code, LabelSupply.next, Trail.result_report_bind,
      Trail.result_bind_eq_ok_unit (Expr.conditionCode_eq_ok hcondition), exists_and_left]
    rw [Trail.succeeds_bind_of fun after => ⟨after, rfl⟩, thenPart.code_succeeds hthen, Stmt.needs, spared_cons]
  | ifElse position condition thenPart elsePart =>
    obtain ⟨hcondition, hthen, helse⟩ := h
    simp only [Stmt.code, LabelSupply.next, Trail.result_report_bind,
      Trail.result_bind_eq_ok_unit (Expr.conditionCode_eq_ok hcondition), exists_and_left]
    rw [Stmt.needs, spared_cons, spared_append, ← thenPart.code_succeeds hthen ⟨labels.issued + 2⟩]
    refine and_congr_right fun _ => Trail.succeeds_bind fun middle => ?_
    rw [Emit.result_instruction_bind, Emit.result_label_bind, Trail.succeeds_bind_of fun after => ⟨after, rfl⟩,
      elsePart.code_succeeds helse]
  | whileDo position condition loopBody =>
    obtain ⟨hcondition, hbody⟩ := h
    simp only [Stmt.code, LabelSupply.next, Trail.result_report_bind, Emit.result_label_bind,
      Trail.result_bind_eq_ok_unit (Expr.conditionCode_eq_ok hcondition), exists_and_left]
    rw [Trail.succeeds_bind_of fun after => ⟨after, rfl⟩, loopBody.code_succeeds hbody, Stmt.needs, spared_cons]
  | call position callee arguments =>
    obtain ⟨entry, he, ha⟩ := h
    have hentry : (Trail.expect (body.context.scopes.callee? body.scope callee) position
        (.internal (.notProcedure callee)) : Emit ProcedureEntry) = pure entry := by rw [he, Trail.expect]
    rw [Stmt.code, hentry, pure_bind, Stmt.needs, ← argumentsCode_eq_ok ha]
    exact (Trail.succeeds_bind_of fun _ => ⟨labels, rfl⟩).trans ⟨fun ⟨_, hok⟩ => hok, fun hok => ⟨(), hok⟩⟩
  | block position stmts =>
    rw [Stmt.code, Stmt.needs]
    exact codeAll_succeeds stmts h labels
  | empty position => simp [Stmt.code, Stmt.needs]

theorem codeAll_succeeds (stmts : List Stmt) (h : AllReady body stmts) (labels : LabelSupply) :
    (∃ after, (codeAll body labels stmts).result = .ok after) ↔ Spared (allNeeds stmts) := by
  cases stmts with
  | nil => simp [codeAll, allNeeds]
  | cons stmt rest =>
    rw [codeAll, Trail.succeeds_bind fun middle => codeAll_succeeds rest h.2 middle, stmt.code_succeeds h.1 labels,
      allNeeds, spared_append]

end

@[simp]
theorem Emit.result_returnAddressCode_bind {α : Type} {frame : FrameLayout} {m : Mnemonic} {next : Unit → Emit α} :
    (frame.returnAddressCode m >>= next).result = (next ()).result := by
  unfold FrameLayout.returnAddressCode
  cases frame.savedReturnAddress <;> rfl

private theorem Procedure.code_succeeds {context : Context} {scope : ScopeId} {frame : FrameLayout}
    {procedure : Procedure} (h : AllReady ⟨context, scope⟩ procedure.body) (labels : LabelSupply) :
    (∃ after, (procedure.code context scope frame labels).result = .ok after) ↔ Spared (allNeeds procedure.body) := by
  rw [← codeAll_succeeds procedure.body h labels, Procedure.code]
  simp only [Trail.result_leave_bind, Emit.result_instruction_bind, Emit.result_returnAddressCode_bind]
  apply Trail.succeeds_bind_of
  intro after
  rw [Emit.result_returnAddressCode_bind]
  exact ⟨after, rfl⟩

private theorem proceduresCode_succeeds {context : Context} (procedures : List Procedure)
    (h : ∀ procedure ∈ procedures, procedure.Ready context) (labels : LabelSupply) :
    (∃ after, (proceduresCode context labels procedures).result = .ok after) ↔
      ∀ procedure ∈ procedures, Spared (allNeeds procedure.body) := by
  induction procedures generalizing labels with
  | nil => simp [proceduresCode]
  | cons procedure rest ih =>
    obtain ⟨entry, scope, localArea, outgoing, frame, he, hs, _, hl, ho, hf, hb⟩ := h procedure List.mem_cons_self
    have hframe : procedure.frame context.scopes = pure (scope, frame) := by
      simp only [Procedure.frame, he, hs, hl, ho, hf, Trail.expect, pure_bind]
    rw [proceduresCode, hframe, pure_bind, Trail.result_report_bind, Trail.result_leave_bind, List.forall_mem_cons,
      ← Procedure.code_succeeds hb labels]
    exact Trail.succeeds_bind fun middle => ih (fun p hp => h p (List.mem_cons_of_mem _ hp)) middle

/-- A program whose procedures are ready has code if all needs in it are met. -/
theorem Program.code_succeeds {context : Context} {program : Program}
    (h : ∀ procedure ∈ program.procedures, procedure.Ready context) :
    (∃ labels, (program.code context).result = .ok labels) ↔
      ∀ procedure ∈ program.procedures, Spared (allNeeds procedure.body) := by
  rw [Program.code, Trail.result_leave_bind]
  exact proceduresCode_succeeds _ h _

end

/-- A compilation that gets as far as the frames goes on if there is code. -/
theorem compile_generated_iff {program : Program} {c : Compilation} (hc : (compile program .placed).1 = .ok c) :
    (∃ whole, (compile program .generated).1 = .ok whole) ↔
      ∃ labels, (program.code c.context).result = .ok labels := by
  obtain ⟨declared, checked, placed, hruns, hctx⟩ := compile_placed hc
  rw [hctx]
  constructor
  · rintro ⟨whole, hwhole⟩
    obtain ⟨_, _, placed', hruns', hctx', labels, _, _, hcode⟩ := compile_generated hwhole
    rw [hruns.unique hruns', ← hctx']
    exact ⟨labels, hcode.1⟩
  · rintro ⟨labels, hlabels⟩
    cases h : (compile program .generated).1 with
    | ok whole => exact ⟨whole, rfl⟩
    -- The phases before it are done, so it could only be the code that fails.
    | error d =>
      obtain ⟨finish, h⟩ := compile_eq_error.mp h
      obtain ⟨other, hcode⟩ := hruns.generate_of_error h
      rw [Program.generate_error hcode] at hlabels
      cases hlabels

/-- The registers that the nodes of the tree take, and the programs that find enough of them. -/
structure Program.RegisterDemand (program : Program) (context : Context) : Prop where
  demands : ∀ procedure ∈ program.procedures, ∃ scope,
    (context.scopes.procedure? procedure.name).bind (·.scope) = some scope ∧
      ∀ node ∈ allNodes procedure.body, node.Demands ⟨context, scope⟩
  generated_iff : (∃ whole, (compile program .generated).1 = .ok whole) ↔
    ∀ procedure ∈ program.procedures, ∀ need ∈ allNeeds procedure.body, need ≤ Scratch.capacity

/-- The scratch registers decide which programs get code. Every address and every value that is computed
in a body takes as many of them as it needs, however many are in use before it. A program that gets as far
as its frames gets code exactly if no assignment, condition or argument in it needs more than there are. -/
theorem compile_register_demand {program : Program} {c : Compilation} (hn : program.nodeIds.Nodup)
    (hc : (compile program .placed).1 = .ok c) : program.RegisterDemand c.context := by
  obtain ⟨declared, checked, placed, hruns, hctx⟩ := compile_placed hc
  have hready : ∀ procedure ∈ program.procedures, procedure.Ready c.context := hctx ▸ hruns.ready hn
  refine ⟨?_, (compile_generated_iff hc).trans (Program.code_succeeds hready)⟩
  intro procedure hp
  obtain ⟨entry, scope, _, _, _, he, hs, -, -, -, -, hbody⟩ := hready procedure hp
  exact ⟨scope, by rw [he]; exact hs, allNodes_demand procedure.body hbody⟩

theorem elementAssigned_register_demand :
    elementAssigned.nodeIds.Nodup ∧ ∃ c, (compile elementAssigned .placed).1 = .ok c ∧
      elementAssigned.RegisterDemand c.context :=
  ⟨by decide, _, rfl, compile_register_demand (by decide) rfl⟩

/-- The address of the element takes a third register. -/
example : elementAssigned.procedures.map (fun procedure => allNeeds procedure.body) = [[3]] := by decide

end SplLang
