import SplLang.Proofs.Lines
import SplLang.Proofs.Source

/-! Control flow. Statements nest and their code is flat; followed line by line, whatever the conditions decide, the
code does what the statement does, action for action, and its end is reached when the statement is finished. -/
namespace SplLang
open Machine Machine.Assembly

section
variable {σ ε : Type} {step : σ → Option (List ε × σ)} {m n : Nat} {s t u : σ} {shown rest : List ε}

/-- So many steps, with all that they show. -/
def walk? (step : σ → Option (List ε × σ)) : Nat → σ → Option (List ε × σ)
  | 0, s => some ([], s)
  | n + 1, s => (step s).bind fun (shown, next) => (walk? step n next).map fun (rest, last) => (shown ++ rest, last)

theorem walk?_succ : walk? step (n + 1) s = some (shown, u) ↔ ∃ first t rest,
    step s = some (first, t) ∧ walk? step n t = some (rest, u) ∧ shown = first ++ rest := by
  rw [walk?, Option.bind_eq_some_iff]
  constructor
  · rintro ⟨⟨first, t⟩, hs, hw⟩
    obtain ⟨⟨rest, _⟩, hr, he⟩ := Option.map_eq_some_iff.mp hw
    cases he
    exact ⟨first, t, rest, hs, hr, rfl⟩
  · rintro ⟨first, t, rest, hs, hr, rfl⟩
    exact ⟨(first, t), hs, Option.map_eq_some_iff.mpr ⟨(rest, u), hr, rfl⟩⟩

private theorem walk?_one (h : step s = some (shown, t)) : walk? step 1 s = some (shown, t) :=
  walk?_succ.mpr ⟨shown, t, [], h, rfl, (List.append_nil _).symm⟩

theorem walk?_add : walk? step (m + n) s = some (shown, u) ↔ ∃ first t rest,
    walk? step m s = some (first, t) ∧ walk? step n t = some (rest, u) ∧ shown = first ++ rest := by
  induction m generalizing s shown with
  | zero =>
    rw [Nat.zero_add]
    constructor
    · intro h
      exact ⟨[], s, shown, rfl, h, rfl⟩
    · rintro ⟨_, _, rest, hz, hr, rfl⟩
      cases hz
      exact hr
  | succ m ih =>
    rw [Nat.succ_add]
    simp only [walk?_succ, ih]
    constructor
    · rintro ⟨first, t, _, hs, ⟨middle, v, rest, hm, hr, rfl⟩, rfl⟩
      exact ⟨first ++ middle, v, rest, ⟨first, t, middle, hs, hm, rfl⟩, hr, (List.append_assoc _ _ _).symm⟩
    · rintro ⟨_, v, rest, ⟨first, t, middle, hs, hm, rfl⟩, hr, rfl⟩
      exact ⟨first, t, middle ++ rest, hs, ⟨middle, v, rest, hm, hr, rfl⟩, List.append_assoc _ _ _⟩

private theorem walk?_trans (h : walk? step m s = some (shown, t)) (h' : walk? step n t = some (rest, u)) :
    walk? step (m + n) s = some (shown ++ rest, u) := walk?_add.mpr ⟨shown, t, rest, h, h', rfl⟩

/-- What is shown in fewer steps is shown first. -/
theorem walk?_prefix (h : walk? step m s = some (shown, t)) (h' : walk? step n s = some (rest, u)) (hle : m ≤ n) :
    shown <+: rest := by
  obtain ⟨k, rfl⟩ := Nat.exists_eq_add_of_le hle
  obtain ⟨first, _, last, hm, -, rfl⟩ := walk?_add.mp h'
  cases h.symm.trans hm
  exact List.prefix_append _ _

/-- Where there is no step, no walk goes further. -/
theorem walk?_le (h : walk? step m s = some (shown, t)) (ht : step t = none)
    (h' : walk? step n s = some (rest, u)) : n ≤ m := by
  by_contra hlt
  obtain ⟨k, rfl⟩ := Nat.exists_eq_add_of_lt (Nat.lt_of_not_le hlt)
  obtain ⟨_, _, _, hm, hk, -⟩ := walk?_add.mp (Nat.add_assoc m k 1 ▸ h')
  cases h.symm.trans hm
  obtain ⟨_, _, _, hs, -, -⟩ := walk?_succ.mp hk
  cases ht.symm.trans hs

/-- There are so many steps unless fewer lead to where there is none. -/
theorem walk?_or (step : σ → Option (List ε × σ)) (n : Nat) (s : σ) :
    (∃ shown t, walk? step n s = some (shown, t)) ∨
      ∃ k shown t, walk? step k s = some (shown, t) ∧ step t = none := by
  induction n with
  | zero => exact .inl ⟨[], s, rfl⟩
  | succ n ih =>
    rcases ih with ⟨shown, t, hn⟩ | hstuck
    · cases ht : step t with
      | none => exact .inr ⟨n, shown, t, hn, ht⟩
      | some next => exact .inl ⟨_, _, walk?_trans hn (walk?_one ht)⟩
    · exact .inr hstuck

end

/-- What a statement does one at a time. -/
inductive Action where
  | assign (position : Position) (target : Variable) (value : Expr)
  | call (position : Position) (callee : Name) (arguments : List Expr)
  /-- A condition is decided. -/
  | test (condition : Expr)

/-- How many conditions are decided. -/
def Action.decisions : Action → Nat
  | .test _ => 1
  | .assign _ _ _ | .call _ _ _ => 0

mutual

/-- The first action of a statement and what is left behind it, once a condition is decided. -/
def Stmt.first? : Stmt → Option (Action × (Bool → List Stmt))
  | .assign position target value => some (.assign position target value, fun _ => [])
  | .call position callee arguments => some (.call position callee arguments, fun _ => [])
  | .ifThen _ condition thenPart => some (.test condition, fun holds => if holds then [thenPart] else [])
  | .ifElse _ condition thenPart elsePart => some (.test condition, fun holds => [if holds then thenPart else elsePart])
  | .whileDo position condition body =>
    some (.test condition, fun holds => if holds then [body, .whileDo position condition body] else [])
  | .block _ body => firstOf? body
  | .empty _ => none

/-- The first action of statements in sequence. -/
def firstOf? : List Stmt → Option (Action × (Bool → List Stmt))
  | [] => none
  | stmt :: rest =>
    match stmt.first? with
    | some (action, behind) => some (action, fun holds => behind holds ++ rest)
    | none => firstOf? rest

end

/-- What is left to do, and how many conditions were decided. -/
structure Course where
  left : List Stmt
  decided : Nat

/-- The next action, where it is known beforehand which of the conditions hold. -/
def Course.step? (holds : Nat → Bool) (course : Course) : Option (List Action × Course) :=
  (firstOf? course.left).map fun (action, behind) =>
    ([action], ⟨behind (holds course.decided), course.decided + action.decisions⟩)

/-- The code branches to the label unless the condition holds. -/
def Expr.Guards (label : Label) (code : Assembly) : Expr → Prop
  | .binary _ (.comparison comparison) _ _ => ∃ front mnemonic, ∃ left right : Register,
    code = front ++ [instr mnemonic [left, right, label]] ∧
      ∀ a b, mnemonic.taken? a b = some !comparison.holds a b
  | .binary _ (.arithmetic _) _ _ | .literal _ _ | .load _ _ => False

/-- The code of an action in a body. -/
def Action.CodedBy (body : Body) (code : Assembly) : Action → Prop
  | .assign position target value =>
    ∃ labels, ((Stmt.assign position target value).code body labels).Gives labels code
  | .call position callee arguments =>
    ∃ labels, ((Stmt.call position callee arguments).code body labels).Gives labels code
  | .test condition => ∃ label, (condition.conditionCode body label).Gives () code ∧ condition.Guards label code

/-- The code is that of the actions, one behind the other. -/
def Coded (body : Body) (actions : List Action) (code : Assembly) : Prop :=
  ∃ pieces, List.Forall₂ (fun action piece => action.CodedBy body piece) actions pieces ∧ code = pieces.flatten

/-- Where a line leads. -/
inductive Turn where
  /-- It is no instruction. -/
  | pass
  /-- It is executed, and then the next line. A check of a subscript succeeds, and a call returns. -/
  | fall
  | jump (target : Label)
  | branch (target : Label)

def Machine.Line.turn : Line → Turn
  | .label _ | .directive _ | .blank => .pass
  | .instruction ⟨.j, [.label target]⟩ => .jump target
  | .instruction ⟨.beq, [.reg _, .reg _, .label target]⟩ | .instruction ⟨.bne, [.reg _, .reg _, .label target]⟩
  | .instruction ⟨.blt, [.reg _, .reg _, .label target]⟩ | .instruction ⟨.ble, [.reg _, .reg _, .label target]⟩
  | .instruction ⟨.bgt, [.reg _, .reg _, .label target]⟩ | .instruction ⟨.bge, [.reg _, .reg _, .label target]⟩ =>
    .branch target
  | .instruction _ => .fall

/-- The line that defines the label. -/
def Machine.Assembly.lineOf? (code : Assembly) (label : Label) : Option Nat := code.idxOf? (.label label)

/-- A line of the code, and how many conditions were decided before it. -/
structure Cursor where
  line : Nat
  decided : Nat

/-- From one line to the next one, where it is known beforehand which of the conditions hold. It shows the line if
that belongs to the code of an action. -/
def Machine.Assembly.step? (holds : Nat → Bool) (code : Assembly) (cursor : Cursor) : Option (Assembly × Cursor) :=
  code[cursor.line]?.bind fun line =>
    match line.turn with
    | .pass => some ([], ⟨cursor.line + 1, cursor.decided⟩)
    | .fall => some ([line], ⟨cursor.line + 1, cursor.decided⟩)
    | .jump target => (code.lineOf? target).map fun next => ([], ⟨next, cursor.decided⟩)
    | .branch target =>
      if holds cursor.decided then some ([line], ⟨cursor.line + 1, cursor.decided + 1⟩)
      else (code.lineOf? target).map fun next => ([line], ⟨next, cursor.decided + 1⟩)

section
variable {body : Body} {whole code first rest : Assembly} {holds : Nat → Bool} {n decided k : Nat} {l : Label}

private theorem add_length_append : n + (first ++ rest).length = n + first.length + rest.length := by
  rw [List.length_append, Nat.add_assoc]

namespace Machine.Assembly

/-- The piece of code stands in the whole code from the line on. -/
def HoldsAt (whole : Assembly) (n : Nat) (code : Assembly) : Prop := code <+: whole.drop n

theorem HoldsAt.left (h : whole.HoldsAt n (first ++ rest)) : whole.HoldsAt n first :=
  (List.prefix_append first rest).trans h

theorem HoldsAt.right (h : whole.HoldsAt n (first ++ rest)) : whole.HoldsAt (n + first.length) rest := by
  obtain ⟨back, hb⟩ := h
  refine ⟨back, ?_⟩
  rw [← List.drop_drop, ← hb, List.append_assoc, List.drop_left]

theorem HoldsAt.head {line : Line} (h : whole.HoldsAt n (line :: rest)) : whole[n]? = some line := by
  obtain ⟨back, hb⟩ := h
  rw [← List.head?_drop, ← hb]
  rfl

theorem HoldsAt.tail {line : Line} (h : whole.HoldsAt n (line :: rest)) : whole.HoldsAt (n + 1) rest :=
  HoldsAt.right (show whole.HoldsAt n ([line] ++ rest) from h)

end Machine.Assembly

/-- A label that is defined once is found. -/
theorem lineOf?_eq (hn : (labels whole).Nodup) (h : whole[n]? = some (.label l)) : whole.lineOf? l = some n := by
  induction whole generalizing n with
  | nil => cases h
  | cons line whole ih =>
    rw [lineOf?, List.idxOf?_cons]
    cases n with
    | zero =>
      cases h
      rw [beq_self_eq_true, if_pos rfl]
    | succ n =>
      have hmem : l ∈ labels whole := List.mem_filterMap.mpr ⟨_, List.mem_of_getElem? h, rfl⟩
      have hne : (line == .label l) = false := by
        rw [beq_eq_false_iff_ne]
        rintro rfl
        exact (List.nodup_cons.mp hn).1 hmem
      have htail : (labels whole).Nodup := hn.sublist ((List.sublist_cons_self line whole).filterMap _)
      rw [hne, if_neg Bool.false_ne_true]
      exact congrArg (Option.map (· + 1)) (ih htail h)

/-- Lines that are executed one behind the other. -/
theorem walk?_fall (hw : whole.HoldsAt n code) (hf : ∀ line ∈ code, line.turn = .fall) :
    walk? (whole.step? holds) code.length ⟨n, decided⟩ = some (code, ⟨n + code.length, decided⟩) := by
  induction code generalizing n with
  | nil => rfl
  | cons line code ih =>
    have hstep : whole.step? holds ⟨n, decided⟩ = some ([line], ⟨n + 1, decided⟩) := by
      rw [step?, hw.head, Option.bind_some, hf line List.mem_cons_self]
    have hrest := ih hw.tail fun line hm => hf line (List.mem_cons_of_mem _ hm)
    rw [List.length_cons, Nat.add_comm code.length, ← Nat.add_assoc]
    exact walk?_trans (walk?_one hstep) hrest

private theorem Machine.Line.Straight.turn {line : Line} (h : line.Straight) : line.turn = .fall := by
  cases h with
  | registers op target left right => cases op <;> rfl
  | constant op target left value => cases op <;> rfl
  | load target base offset => rfl
  | check index bound => rfl

private theorem turn_branch (comparison : Comparison) (left right : Register) :
    (instr comparison.branch [left, right, l]).turn = .branch l := by
  cases comparison <;> rfl

/-- A condition is decided. Its code falls through if it holds. -/
theorem Expr.condition_walk {condition : Expr} {target : Nat}
    (hg : (condition.conditionCode body l).Gives () code) (hw : whole.HoldsAt n code)
    (ht : whole.lineOf? l = some target) :
    walk? (whole.step? holds) code.length ⟨n, decided⟩ =
        some (code, ⟨if holds decided then n + code.length else target, decided + 1⟩) ∧
      0 < code.length ∧ (Action.test condition).CodedBy body code := by
  obtain ⟨node, comparison, left, right, middle, last, first, rest, rfl, hl, hr, rfl⟩ := Expr.condition_shape hg
  have hfall : ∀ line ∈ first ++ rest, line.turn = .fall := by
    rw [List.forall_mem_append]
    exact ⟨fun line hm => (left.valueCode_straight hl line hm).turn,
      fun line hm => (right.valueCode_straight hr line hm).turn⟩
  refine ⟨?_, ?_, l, hg, _, _, _, _, rfl, comparison.taken?_negated⟩
  · rw [List.length_append]
    refine walk?_trans (walk?_fall hw.left hfall) (walk?_one ?_)
    rw [step?, hw.right.head, Option.bind_some, turn_branch]
    dsimp only
    rw [ht]
    cases holds decided with
    | false => rfl
    | true => rfl
  · rw [List.length_append]
    exact Nat.succ_pos _

private theorem Machine.Line.InBody.turn {callees : List Name} {line : Line} (h : line.InBody k k callees) :
    line.turn = .fall := by
  cases h with
  | straight hs => exact hs.turn
  | store value base offset => rfl
  | branch comparison left right hn hlt => omega
  | jump hn hlt => omega
  | call hm => rfl
  | label hn hlt => omega

/-- A statement that draws no label runs from its first line to its last one. -/
theorem Stmt.walk_through {stmt : Stmt} {supply : LabelSupply} (hg : (stmt.code body supply).Gives supply code)
    (hw : whole.HoldsAt n code) :
    walk? (whole.step? holds) code.length ⟨n, decided⟩ = some (code, ⟨n + code.length, decided⟩) :=
  walk?_fall hw fun line hm => (stmt.code_lines hg line hm).turn

end

/-- What stands at the line and where it leads, over labels and jumps, is the code of the statements that are left,
one behind the other up to the end of the whole code. -/
inductive Continues (body : Body) (whole : Assembly) : Nat → List Stmt → Prop
  | done : Continues body whole whole.length []
  | next {stmt : Stmt} {before after : LabelSupply} {code : Assembly} {n : Nat} {rest : List Stmt} :
      (stmt.code body before).Gives after code → whole.HoldsAt n code → Continues body whole (n + code.length) rest →
        Continues body whole n (stmt :: rest)
  | label {l : Label} {n : Nat} {rest : List Stmt} :
      whole[n]? = some (.label l) → Continues body whole (n + 1) rest → Continues body whole n rest
  | jump {l : Label} {n target : Nat} {rest : List Stmt} :
      whole[n]? = some (instr .j [l]) → whole.lineOf? l = some target → Continues body whole target rest →
        Continues body whole n rest

/-- From the line the code does the given action, and then it continues with what is left behind it. Without an
action it runs to its end. -/
def Proceeds (body : Body) (whole : Assembly) (holds : Nat → Bool) (cursor : Cursor) :
    Option (Action × (Bool → List Stmt)) → Prop
  | none => ∃ m, walk? (whole.step? holds) m cursor = some ([], ⟨whole.length, cursor.decided⟩)
  | some (action, behind) => ∃ m code line, 0 < m ∧
      walk? (whole.step? holds) m cursor = some (code, ⟨line, cursor.decided + action.decisions⟩) ∧
      action.CodedBy body code ∧ Continues body whole line (behind (holds cursor.decided))

section
variable {body : Body} {whole code : Assembly} {holds : Nat → Bool} {n decided : Nat} {rest stmts : List Stmt}
  {before after : LabelSupply}

/-- Statements in sequence are left to do where their code stands. -/
theorem Continues.sequence (hg : (codeAll body before stmts).Gives after code) (hw : whole.HoldsAt n code)
    (h : Continues body whole (n + code.length) rest) : Continues body whole n (stmts ++ rest) := by
  induction stmts generalizing before code n with
  | nil =>
    rw [codeAll] at hg
    obtain ⟨rfl, rfl⟩ := Trail.gives_pure.mp hg
    exact h
  | cons stmt stmts ih =>
    obtain ⟨middle, first, last, hs, hr, rfl⟩ := codeAll_shape hg
    rw [add_length_append] at h
    exact .next hs hw.left (ih hr hw.right h)

/-- What shows nothing changes nothing. -/
theorem Proceeds.behind {first : Option (Action × (Bool → List Stmt))} {line : Nat}
    (hs : whole.step? holds ⟨n, decided⟩ = some ([], ⟨line, decided⟩))
    (h : Proceeds body whole holds ⟨line, decided⟩ first) : Proceeds body whole holds ⟨n, decided⟩ first := by
  cases first with
  | none =>
    obtain ⟨m, hm⟩ := h
    exact ⟨1 + m, walk?_trans (walk?_one hs) hm⟩
  | some first =>
    obtain ⟨action, behind⟩ := first
    obtain ⟨m, code, last, hpos, hm, hcoded, hcontinues⟩ := h
    exact ⟨1 + m, code, last, Nat.add_pos_right 1 hpos, walk?_trans (walk?_one hs) hm, hcoded, hcontinues⟩

/-- A condition goes on with the code behind it, or at its label. -/
theorem Expr.condition_proceeds {condition : Expr} {l : Label} {target : Nat} {behind : Bool → List Stmt}
    (hg : (condition.conditionCode body l).Gives () code) (hw : whole.HoldsAt n code)
    (ht : whole.lineOf? l = some target) (hthen : Continues body whole (n + code.length) (behind true))
    (helse : Continues body whole target (behind false)) :
    Proceeds body whole holds ⟨n, decided⟩ (some (.test condition, behind)) := by
  obtain ⟨hwalk, hpos, hcoded⟩ := Expr.condition_walk hg hw ht
  refine ⟨_, code, _, hpos, hwalk, hcoded, ?_⟩
  show Continues body whole _ (behind (holds decided))
  cases holds decided with
  | false => exact helse
  | true => exact hthen

private theorem firstOf?_append : firstOf? (stmts ++ rest) =
    match firstOf? stmts with
    | some (action, behind) => some (action, fun holds => behind holds ++ rest)
    | none => firstOf? rest := by
  induction stmts with
  | nil => rfl
  | cons stmt stmts ih =>
    rw [List.cons_append, firstOf?, firstOf?]
    cases stmt.first? with
    | none => exact ih
    | some first => simp only [List.append_assoc]

private theorem firstOf?_block {position : Position} :
    firstOf? (.block position stmts :: rest) = firstOf? (stmts ++ rest) := by
  rw [firstOf?_append, firstOf?, Stmt.first?]

mutual

/-- The code of a statement does what the statement does first, and then it continues with what is left of it. -/
theorem Stmt.proceeds (hn : (labels whole).Nodup) (stmt : Stmt) {before after : LabelSupply} {code : Assembly} {n : Nat}
    {rest : List Stmt} (hg : (stmt.code body before).Gives after code) (hw : whole.HoldsAt n code)
    (hc : Continues body whole (n + code.length) rest)
    (hp : Proceeds body whole holds ⟨n + code.length, decided⟩ (firstOf? rest)) :
    Proceeds body whole holds ⟨n, decided⟩ (firstOf? (stmt :: rest)) := by
  cases stmt with
  | assign position target value =>
    obtain ⟨_, _, _, _, rfl, -, -, hcode⟩ := Stmt.assign_shape hg
    have hpos : 0 < code.length := List.length_pos_iff.mpr (by simp [hcode])
    exact ⟨_, code, _, hpos, Stmt.walk_through hg hw, ⟨_, hg⟩, hc⟩
  | call position callee arguments =>
    obtain ⟨_, _, rfl, -, -, hcode⟩ := Stmt.call_shape hg
    have hpos : 0 < code.length := List.length_pos_iff.mpr (by simp [hcode])
    exact ⟨_, code, _, hpos, Stmt.walk_through hg hw, ⟨_, hg⟩, hc⟩
  | ifThen position condition thenPart =>
    obtain ⟨first, last, hcondition, hthen, rfl⟩ := Stmt.ifThen_shape hg
    have hend := hw.right.head
    rw [add_length_append] at hc
    have hbehind := Continues.label hend hc
    have hthenEnd := hbehind
    rw [add_length_append] at hthenEnd
    have hthenStart := Continues.next hthen hw.left.right hthenEnd
    exact Expr.condition_proceeds hcondition hw.left.left (lineOf?_eq hn hend) hthenStart hbehind
  | ifElse position condition thenPart elsePart =>
    obtain ⟨middle, first, inner, last, hcondition, hthen, helse, rfl⟩ := Stmt.ifElse_shape hg
    have hlast := hw.left.right
    have hstart := hw.left.left.left
    have hjump := hw.left.left.right
    have hend := hw.right.head
    have helseLabel := hjump.tail.head
    rw [add_length_append] at hc
    have hbehind := Continues.label hend hc
    -- The code of the first part is left by the jump over the second one.
    have hthenEnd : Continues body whole (n + (first ++ inner).length) rest :=
      .jump hjump.head (lineOf?_eq hn hend) hbehind
    rw [add_length_append] at hthenEnd hbehind
    rw [add_length_append] at hlast hbehind
    have helseStart : Continues body whole (n + (first ++ inner).length + 1) (elsePart :: rest) :=
      .label helseLabel (.next helse hlast hbehind)
    have hthenStart := Continues.next hthen hstart.right hthenEnd
    exact Expr.condition_proceeds hcondition hstart.left (lineOf?_eq hn helseLabel) hthenStart helseStart
  | whileDo position condition loopBody =>
    obtain ⟨first, inner, hcondition, hbody, hcode⟩ := Stmt.whileDo_shape hg
    -- Behind the body the code goes back to its first line, where the whole loop is left to do once more.
    have hloop : Continues body whole n (.whileDo position condition loopBody :: rest) := .next hg hw hc
    rw [hcode] at hw hc
    have htest := hw.left.left
    have hinner := hw.left.right
    have hend := hw.right.tail.head
    rw [add_length_append] at hc
    have hbehind := Continues.label hend hc
    have hbodyEnd := Continues.jump hw.right.head (lineOf?_eq hn htest.head) hloop
    rw [add_length_append] at hbodyEnd
    have hline : n + (Line.label (.generated before.issued) :: first).length = n + 1 + first.length := by
      rw [List.length_cons, Nat.add_right_comm, Nat.add_assoc]
    rw [hline] at hinner hbodyEnd
    have hstep : whole.step? holds ⟨n, decided⟩ = some ([], ⟨n + 1, decided⟩) := by
      rw [step?, htest.head]
      rfl
    have hbodyStart := Continues.next hbody hinner hbodyEnd
    refine .behind hstep ?_
    exact Expr.condition_proceeds hcondition htest.tail (lineOf?_eq hn hend) hbodyStart hbehind
  | block position stmts =>
    rw [Stmt.code] at hg
    rw [firstOf?_block]
    exact codeAll_proceeds hn stmts hg hw hc hp
  | empty position =>
    rw [Stmt.code] at hg
    obtain ⟨rfl, rfl⟩ := Trail.gives_pure.mp hg
    exact hp

theorem codeAll_proceeds (hn : (labels whole).Nodup) (stmts : List Stmt) {before after : LabelSupply} {code : Assembly}
    {n : Nat} {rest : List Stmt} (hg : (codeAll body before stmts).Gives after code) (hw : whole.HoldsAt n code)
    (hc : Continues body whole (n + code.length) rest)
    (hp : Proceeds body whole holds ⟨n + code.length, decided⟩ (firstOf? rest)) :
    Proceeds body whole holds ⟨n, decided⟩ (firstOf? (stmts ++ rest)) := by
  cases stmts with
  | nil =>
    rw [codeAll] at hg
    obtain ⟨rfl, rfl⟩ := Trail.gives_pure.mp hg
    exact hp
  | cons stmt stmts =>
    obtain ⟨middle, first, last, hs, hr, rfl⟩ := codeAll_shape hg
    rw [add_length_append] at hc hp
    exact stmt.proceeds hn hs hw.left (.sequence hr hw.right hc) (codeAll_proceeds hn stmts hr hw.right hc hp)

end

private theorem Continues.proceeds (hn : (labels whole).Nodup) (h : Continues body whole n stmts) (holds : Nat → Bool)
    (decided : Nat) : Proceeds body whole holds ⟨n, decided⟩ (firstOf? stmts) := by
  induction h with
  | done => exact ⟨0, rfl⟩
  | next hg hw hc ih => exact Stmt.proceeds hn _ hg hw hc ih
  | label hl _ ih =>
    refine .behind ?_ ih
    rw [step?, hl]
    rfl
  | jump hj ht _ ih =>
    refine .behind ?_ ih
    rw [step?, hj]
    show (whole.lineOf? _).map _ = _
    rw [ht]
    rfl

/-- The code does the actions of the statements one behind the other, however many. Each takes a step at least. -/
theorem Continues.walk (hn : (labels whole).Nodup) {course last : Course} {actions : List Action}
    (hw : walk? (Course.step? holds) k course = some (actions, last)) (hc : Continues body whole n course.left) :
    ∃ m code line, k ≤ m ∧ walk? (whole.step? holds) m ⟨n, course.decided⟩ = some (code, ⟨line, last.decided⟩) ∧
      Coded body actions code ∧ Continues body whole line last.left := by
  induction k generalizing n course actions with
  | zero =>
    cases hw
    exact ⟨0, [], n, Nat.le_refl 0, rfl, ⟨[], .nil, rfl⟩, hc⟩
  | succ k ih =>
    obtain ⟨_, next, others, hstep, hrest, rfl⟩ := walk?_succ.mp hw
    obtain ⟨⟨action, behind⟩, hfirst, he⟩ := Option.map_eq_some_iff.mp hstep
    cases he
    have hproceeds := hc.proceeds hn holds course.decided
    rw [hfirst] at hproceeds
    obtain ⟨m, piece, line, hpos, hwalk, hcoded, hnext⟩ := hproceeds
    obtain ⟨m', code, line', hle, hwalk', ⟨pieces, hpieces, rfl⟩, hlast⟩ := ih hrest hnext
    have hall : Coded body (action :: others) (piece ++ pieces.flatten) := ⟨piece :: pieces, .cons hcoded hpieces, rfl⟩
    exact ⟨m + m', _, line', by omega, walk?_trans hwalk hwalk', hall, hlast⟩

/-- Without anything left to do the code runs to its end. -/
theorem Continues.finish (hn : (labels whole).Nodup) {course : Course} (hc : Continues body whole n course.left)
    (hs : course.step? holds = none) :
    ∃ m, walk? (whole.step? holds) m ⟨n, course.decided⟩ = some ([], ⟨whole.length, course.decided⟩) := by
  have hproceeds := hc.proceeds hn holds course.decided
  rwa [Option.map_eq_none_iff.mp hs] at hproceeds

private theorem step?_length : whole.step? holds ⟨whole.length, decided⟩ = none := by
  rw [step?, List.getElem?_eq_none (Nat.le_refl _)]
  rfl

end

section
variable {body : Body} {stmt : Stmt} {before after : LabelSupply} {code : Assembly}

private theorem Stmt.code_labels_nodup (hg : (stmt.code body before).Gives after code) : (labels code).Nodup :=
  (stmt.code_draws hg).perm.nodup_iff.mpr drawn_nodup

private theorem Stmt.code_continues (hg : (stmt.code body before).Gives after code) : Continues body code 0 [stmt] := by
  refine .next hg (List.prefix_refl _) ?_
  rw [Nat.zero_add]
  exact .done

section
variable (hg : (stmt.code body before).Gives after code) {holds : Nat → Bool} {k m : Nat} {actions : List Action}
  {course : Course} {lines : Assembly} {cursor : Cursor}
include hg

private theorem Stmt.code_walk (hw : walk? (Course.step? holds) k ⟨[stmt], 0⟩ = some (actions, course)) :
    ∃ m lines line, k ≤ m ∧ walk? (code.step? holds) m ⟨0, 0⟩ = some (lines, ⟨line, course.decided⟩) ∧
      Coded body actions lines ∧ Continues body code line course.left :=
  (Stmt.code_continues hg).walk (Stmt.code_labels_nodup hg) hw

/-- The code of the actions that are done is run, up to the end if there are no more. -/
theorem Stmt.code_does (hw : walk? (Course.step? holds) k ⟨[stmt], 0⟩ = some (actions, course)) :
    ∃ m lines cursor, walk? (code.step? holds) m ⟨0, 0⟩ = some (lines, cursor) ∧ Coded body actions lines ∧
      cursor.decided = course.decided ∧ (course.step? holds = none → cursor.line = code.length) := by
  obtain ⟨m, lines, line, -, hwalk, hcoded, hleft⟩ := Stmt.code_walk hg hw
  cases hs : course.step? holds with
  | some next => exact ⟨m, lines, _, hwalk, hcoded, rfl, nofun⟩
  | none =>
    obtain ⟨m', hend⟩ := hleft.finish (Stmt.code_labels_nodup hg) hs
    have hwhole := walk?_trans hwalk hend
    rw [List.append_nil] at hwhole
    exact ⟨m + m', lines, _, hwhole, hcoded, rfl, fun _ => rfl⟩

/-- The lines that are run are the first ones of the code of actions that are done. -/
theorem Stmt.code_done (hw : walk? (code.step? holds) m ⟨0, 0⟩ = some (lines, cursor)) :
    ∃ k actions course all, walk? (Course.step? holds) k ⟨[stmt], 0⟩ = some (actions, course) ∧
      Coded body actions all ∧ lines <+: all := by
  rcases walk?_or (Course.step? holds) m ⟨[stmt], 0⟩ with ⟨actions, course, hcourse⟩ | ⟨k, actions, course, hcourse, hs⟩
  · -- Each action takes a step of the code at least, so the code of so many actions reaches as far.
    obtain ⟨n, all, line, hle, hall, hcoded, -⟩ := Stmt.code_walk hg hcourse
    exact ⟨m, actions, course, all, hcourse, hcoded, walk?_prefix hw hall hle⟩
  · obtain ⟨n, all, ⟨line, decided⟩, hall, hcoded, -, hend⟩ := Stmt.code_does hg hcourse
    obtain rfl := hend hs
    exact ⟨k, actions, course, all, hcourse, hcoded, walk?_prefix hw hall (walk?_le hall step?_length hw)⟩

/-- The code gets to its end if the statement does, and only then. -/
theorem Stmt.code_ends : (∃ m lines cursor, walk? (code.step? holds) m ⟨0, 0⟩ = some (lines, cursor) ∧
      cursor.line = code.length) ↔
    ∃ k actions course, walk? (Course.step? holds) k ⟨[stmt], 0⟩ = some (actions, course) ∧
      course.step? holds = none := by
  constructor
  · rintro ⟨m, lines, ⟨line, decided⟩, hw, rfl⟩
    rcases walk?_or (Course.step? holds) (m + 1) ⟨[stmt], 0⟩ with ⟨_, _, hcourse⟩ | hend
    · obtain ⟨n, _, _, hle, hall, -, -⟩ := Stmt.code_walk hg hcourse
      have hmost := walk?_le hw step?_length hall
      omega
    · exact hend
  · rintro ⟨k, actions, course, hcourse, hs⟩
    obtain ⟨m, lines, cursor, hw, -, -, hend⟩ := Stmt.code_does hg hcourse
    exact ⟨m, lines, cursor, hw, hend hs⟩

end

/-- It is known beforehand which of the conditions hold, one answer each time that one is decided. Then the code of a
statement, followed from its first line, is that of the statement's actions in their order: however many actions
are done, their code is run, and whatever lines are run, they are the first of such code. The line behind the code
is reached if the statement gets to its end, and only then. -/
theorem Stmt.code_flow (hg : (stmt.code body before).Gives after code) (holds : Nat → Bool) :
    (∀ k actions course, walk? (Course.step? holds) k ⟨[stmt], 0⟩ = some (actions, course) →
      ∃ m lines cursor, walk? (code.step? holds) m ⟨0, 0⟩ = some (lines, cursor) ∧ Coded body actions lines ∧
        cursor.decided = course.decided ∧ (course.step? holds = none → cursor.line = code.length)) ∧
    (∀ m lines cursor, walk? (code.step? holds) m ⟨0, 0⟩ = some (lines, cursor) →
      ∃ k actions course all, walk? (Course.step? holds) k ⟨[stmt], 0⟩ = some (actions, course) ∧
        Coded body actions all ∧ lines <+: all) ∧
    ((∃ m lines cursor, walk? (code.step? holds) m ⟨0, 0⟩ = some (lines, cursor) ∧ cursor.line = code.length) ↔
      ∃ k actions course, walk? (Course.step? holds) k ⟨[stmt], 0⟩ = some (actions, course) ∧
        course.step? holds = none) :=
  ⟨fun _ _ _ => Stmt.code_does hg, fun _ _ _ => Stmt.code_done hg, Stmt.code_ends hg⟩

end

/-- A loop with a conditional call. -/
def guardedCall : Stmt :=
  .whileDo ⟨1, 1⟩ (.binary ⟨2, ⟨1, 8⟩⟩ (.comparison .lt) (.literal ⟨0, ⟨1, 8⟩⟩ 1) (.literal ⟨1, ⟨1, 12⟩⟩ 2))
    (.ifThen ⟨2, 3⟩ (.binary ⟨5, ⟨2, 7⟩⟩ (.comparison .ge) (.literal ⟨3, ⟨2, 7⟩⟩ 1) (.literal ⟨4, ⟨2, 12⟩⟩ 2))
      (.call ⟨2, 15⟩ "exit" []))

/-- A body that sees the library and nothing else. -/
def libraryBody : Body := ⟨{ Context.initial with scopes := (ScopeTree.initial.nest ScopeTree.globalScope).2 }, 1⟩

/-- Both rounds make the call, and then the loop is left. -/
theorem guardedCall_flow : ∃ code : Assembly, (guardedCall.code libraryBody ⟨5⟩).Gives ⟨8⟩ code ∧
    ∃ m lines cursor, walk? (code.step? (· < 4)) m ⟨0, 0⟩ = some (lines, cursor) ∧ cursor.line = code.length :=
  ⟨_, ⟨rfl, rfl⟩, (Stmt.code_flow ⟨rfl, rfl⟩ (· < 4)).2.2.mpr ⟨7, _, _, rfl, rfl⟩⟩

end SplLang
