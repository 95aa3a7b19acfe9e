import SplLang.Proofs.Spellings

/-! Code for trees that are alike. Where two contexts agree on what a body means, the code from one is that from the
other with the numbers of all generated labels moved by as much as the first label that is drawn. -/
namespace SplLang
open Machine

namespace Machine

/-- A generated label, with the number added to its own, or the same name. -/
inductive Label.Shifted (d : Int) : Label → Label → Prop
  | generated {n n' : Nat} : (n' : Int) = n + d → Shifted d (.generated n) (.generated n')
  | named (name : Name) : Shifted d (.named name) (.named name)

inductive Operand.Shifted (d : Int) : Operand → Operand → Prop
  | reg (register : Register) : Shifted d (.reg register) (.reg register)
  | imm (value : Int) : Shifted d (.imm value) (.imm value)
  | label {l l' : Label} : l.Shifted d l' → Shifted d (.label l) (.label l')

inductive Line.Shifted (d : Int) : Line → Line → Prop
  | directive (words : String) : Shifted d (.directive words) (.directive words)
  | label {l l' : Label} : l.Shifted d l' → Shifted d (.label l) (.label l')
  | instruction {mnemonic : Mnemonic} {operands operands' : List Operand} :
      List.Forall₂ (Operand.Shifted d) operands operands' →
        Shifted d (instr mnemonic operands) (instr mnemonic operands')
  | blank : Shifted d .blank .blank

/-- The operand is no generated label. -/
def Operand.isFixed : Operand → Bool
  | .label (.generated _) => false
  | .label (.named _) | .reg _ | .imm _ => true

/-- The line has no generated label. -/
def Line.isFixed : Line → Bool
  | .label (.generated _) => false
  | .instruction i => i.operands.all (·.isFixed)
  | .label (.named _) | .directive _ | .blank => true

private theorem Operand.shifted_self {operand : Operand} (h : operand.isFixed) (d : Int) :
    operand.Shifted d operand := by
  cases operand with
  | reg register => exact .reg register
  | imm value => exact .imm value
  | label l =>
    cases l with
    | generated n => cases h
    | named name => exact .label (.named name)

private theorem Line.shifted_self {line : Line} (h : line.isFixed) (d : Int) : line.Shifted d line := by
  cases line with
  | directive words => exact .directive words
  | blank => exact .blank
  | label l =>
    cases l with
    | generated n => cases h
    | named name => exact .label (.named name)
  | instruction i =>
    have hall : ∀ operand ∈ i.operands, operand.isFixed := List.all_eq_true.mp h
    exact .instruction (List.forall₂_same.mpr fun operand ho => operand.shifted_self (hall operand ho) d)

private theorem Line.Straight.isFixed {line : Line} (h : line.Straight) : line.isFixed := by
  cases h <;> rfl

/-- Where no labels are drawn, lines for statements have no generated one. -/
theorem Line.InBody.isFixed {line : Line} {n : Nat} {callees : List Name} (h : line.InBody n n callees) :
    line.isFixed := by
  cases h with
  | straight hs => exact hs.isFixed
  | store => rfl
  | call => rfl
  | branch _ _ _ hn hlt => exact absurd hlt (Nat.not_lt.mpr hn)
  | jump hn hlt => exact absurd hlt (Nat.not_lt.mpr hn)
  | label hn hlt => exact absurd hlt (Nat.not_lt.mpr hn)

private theorem Assembly.shifted_self {code : Assembly} (h : ∀ line ∈ code, line.isFixed) (d : Int) :
    List.Forall₂ (Line.Shifted d) code code :=
  List.forall₂_same.mpr fun line hl => line.shifted_self (h line hl) d

end Machine

/-- What a caller has to know of a parameter besides its type. -/
def Slot.passing (slot : Slot) : Bool × Option UInt32 := (slot.byReference, slot.offset)

/-- How the arguments of a call are passed. -/
def ProcedureEntry.passing (entry : ProcedureEntry) : List (Bool × Option UInt32) := entry.parameters.map (·.passing)

/-- Names mean the same in the two bodies, whatever numbers their types have. -/
structure Body.Agrees (body body' : Body) : Prop where
  built : body.context.types.Built
  built' : body'.context.types.Built
  placed? : ∀ name, body'.placed? name = body.placed? name
  types : ∀ {name type type'}, body.around.varType? name = some type → body'.around.varType? name = some type' →
    body.context.types.SameType body'.context.types type type'
  callees : ∀ name, (body'.context.scopes.callee? body'.scope name).map (·.passing) =
    (body.context.scopes.callee? body.scope name).map (·.passing)

section
variable {body body' : Body} {scratch result result' : Scratch} {found found' : Assembly} {d : Int}

private theorem Variable.mem_subscripts {node : Node} {array : Variable} {index : Expr} :
    ⟨array, index⟩ ∈ (Variable.element node array index).subscripts :=
  List.mem_append_right _ (List.mem_singleton_self _)

/-- The array type remembered for the array of a subscript is its type. -/
theorem NotedIn.noted? {subscripts : List Subscript} (h : NotedIn body.context body.around subscripts)
    {sub : Subscript} (hs : sub ∈ subscripts) {element : TypeId} {length : UInt32}
    (hn : body.noted? sub.array = some (element, length)) :
    ∃ type, sub.array.HasType body.around type ∧ body.context.types.array? type = some (element, length) := by
  obtain ⟨type, ht, hid⟩ := h sub hs
  rw [Body.noted?, hid] at hn
  exact ⟨type, ht, hn⟩

/-- Variables that are alike have the same type. -/
theorem Variable.Alike.sameType {v v' : Variable} (ha : v.Alike v') (h : body.Agrees body') {type type' : TypeId}
    (ht : v.HasType body.around type) (ht' : v'.HasType body'.around type') :
    body.context.types.SameType body'.context.types type type' := by
  cases ha with
  | named =>
    cases ht with
    | named hn =>
      cases ht' with
      | named hn' => exact h.types hn hn'
  | element ha _ =>
    cases ht with
    | element ht _ he =>
      cases ht' with
      | element ht' _ he' => exact ((ha.sameType h ht ht').array h.built he he').2

mutual

/-- The code for the addresses of variables that are alike is the same and leaves the same scratch registers in use. -/
theorem Variable.Alike.addressCode_eq {v v' : Variable} (ha : v.Alike v') (h : body.Agrees body')
    (hn : NotedIn body.context body.around v.subscripts) (hn' : NotedIn body'.context body'.around v'.subscripts)
    {scratch result result' : Scratch} {found found' : Assembly}
    (hc : (v.addressCode body scratch).Gives result found)
    (hc' : (v'.addressCode body' scratch).Gives result' found') : result' = result ∧ found' = found := by
  cases ha with
  | named =>
    obtain ⟨offset, byReference, hp, _, rfl, rfl⟩ := Variable.named_shape hc
    obtain ⟨offset', byReference', hp', _, rfl, rfl⟩ := Variable.named_shape hc'
    rw [h.placed?, hp] at hp'
    cases hp'
    exact ⟨rfl, rfl⟩
  | element harray hindex =>
    obtain ⟨element, length, middle, last, first, rest, hnoted, hfirst, hrest, _, rfl, rfl⟩ := Variable.element_shape hc
    obtain ⟨element', length', middle', last', first', rest', hnoted', hfirst', hrest', _, rfl, rfl⟩ :=
      Variable.element_shape hc'
    obtain ⟨type, ht, harr⟩ := hn.noted? Variable.mem_subscripts hnoted
    obtain ⟨type', ht', harr'⟩ := hn'.noted? Variable.mem_subscripts hnoted'
    obtain ⟨rfl, helement⟩ := (harray.sameType h ht ht').array h.built harr harr'
    obtain ⟨hparts, _⟩ := List.forall_mem_append.mp hn
    obtain ⟨hparts', _⟩ := List.forall_mem_append.mp hn'
    obtain ⟨hna, hni⟩ := List.forall_mem_append.mp hparts
    obtain ⟨hna', hni'⟩ := List.forall_mem_append.mp hparts'
    obtain ⟨rfl, rfl⟩ := harray.addressCode_eq h hna hna' hfirst hfirst'
    obtain ⟨rfl, rfl⟩ := hindex.valueCode_eq h hni hni' hrest hrest'
    rw [helement.byteSize_eq h.built h.built']
    exact ⟨rfl, rfl⟩

/-- The code for the values of expressions that are alike is the same and leaves the same scratch registers in use. -/
theorem Expr.Alike.valueCode_eq {e e' : Expr} (ha : e.Alike e') (h : body.Agrees body')
    (hn : NotedIn body.context body.around e.subscripts) (hn' : NotedIn body'.context body'.around e'.subscripts)
    {scratch result result' : Scratch} {found found' : Assembly}
    (hc : (e.valueCode body scratch).Gives result found)
    (hc' : (e'.valueCode body' scratch).Gives result' found') : result' = result ∧ found' = found := by
  cases ha with
  | literal =>
    obtain ⟨_, rfl, rfl⟩ := Expr.literal_shape hc
    obtain ⟨_, rfl, rfl⟩ := Expr.literal_shape hc'
    exact ⟨rfl, rfl⟩
  | load hsource =>
    obtain ⟨first, hfirst, rfl⟩ := Expr.load_shape hc
    obtain ⟨first', hfirst', rfl⟩ := Expr.load_shape hc'
    obtain ⟨rfl, rfl⟩ := hsource.addressCode_eq h hn hn' hfirst hfirst'
    exact ⟨rfl, rfl⟩
  | binary hleft hright =>
    obtain ⟨arithmetic, middle, last, first, rest, rfl, hfirst, hrest, rfl, rfl⟩ := Expr.binary_shape hc
    obtain ⟨arithmetic', middle', last', first', rest', hop, hfirst', hrest', rfl, rfl⟩ := Expr.binary_shape hc'
    cases hop
    obtain ⟨hnl, hnr⟩ := List.forall_mem_append.mp hn
    obtain ⟨hnl', hnr'⟩ := List.forall_mem_append.mp hn'
    obtain ⟨rfl, rfl⟩ := hleft.valueCode_eq h hnl hnl' hfirst hfirst'
    obtain ⟨rfl, rfl⟩ := hright.valueCode_eq h hnr hnr' hrest hrest'
    exact ⟨rfl, rfl⟩

end

/-- Conditions that are alike branch in the same way to labels of which one is the other, moved. -/
theorem Expr.Alike.conditionCode_shifted {e e' : Expr} (ha : e.Alike e') (h : body.Agrees body')
    (hn : NotedIn body.context body.around e.subscripts) (hn' : NotedIn body'.context body'.around e'.subscripts)
    {l l' : Label} (hl : l.Shifted d l') {u u' : Unit} (hc : (e.conditionCode body l).Gives u found)
    (hc' : (e'.conditionCode body' l').Gives u' found') : List.Forall₂ (Line.Shifted d) found found' := by
  obtain ⟨_, comparison, left, right, middle, last, first, rest, rfl, hfirst, hrest, rfl⟩ := Expr.condition_shape hc
  obtain ⟨_, comparison', left', right', middle', last', first', rest', rfl, hfirst', hrest', rfl⟩ :=
    Expr.condition_shape hc'
  cases ha with
  | binary hleft hright =>
    obtain ⟨hnl, hnr⟩ := List.forall_mem_append.mp hn
    obtain ⟨hnl', hnr'⟩ := List.forall_mem_append.mp hn'
    obtain ⟨rfl, rfl⟩ := hleft.valueCode_eq h hnl hnl' hfirst hfirst'
    obtain ⟨rfl, rfl⟩ := hright.valueCode_eq h hnr hnr' hrest hrest'
    refine List.rel_append (List.rel_append (Assembly.shifted_self ?_ d) (Assembly.shifted_self ?_ d)) ?_
    · exact fun line hm => (left.valueCode_straight hfirst line hm).isFixed
    · exact fun line hm => (right.valueCode_straight hrest line hm).isFixed
    · exact .cons (.instruction (.cons (.reg _) (.cons (.reg _) (.cons (.label hl) .nil)))) .nil

private theorem Expr.Alike.argumentCode_eq {e e' : Expr} (ha : e.Alike e') (h : body.Agrees body')
    (hn : NotedIn body.context body.around e.subscripts) (hn' : NotedIn body'.context body'.around e'.subscripts)
    {byReference : Bool} (hc : (e.argumentCode body byReference).Gives result found)
    (hc' : (e'.argumentCode body' byReference).Gives result' found') : result' = result ∧ found' = found := by
  cases byReference with
  | false => exact ha.valueCode_eq h hn hn' (Expr.value_argument_shape hc) (Expr.value_argument_shape hc')
  | true =>
    obtain ⟨_, source, rfl, hs⟩ := Expr.reference_argument_shape hc
    obtain ⟨_, source', rfl, hs'⟩ := Expr.reference_argument_shape hc'
    cases ha with
    | load ha => exact ha.addressCode_eq h hn hn' hs hs'

/-- Arguments that are alike are stored by the same code if they are passed in the same way. -/
theorem argumentsCode_eq {callee callee' : Name} {arguments arguments' : List Expr}
    (ha : List.Forall₂ Expr.Alike arguments arguments') (h : body.Agrees body')
    (hn : NotedIn body.context body.around (arguments.flatMap (·.subscripts)))
    (hn' : NotedIn body'.context body'.around (arguments'.flatMap (·.subscripts))) {slots slots' : List Slot}
    (hs : slots'.map (·.passing) = slots.map (·.passing)) {u u' : Unit} {found found' : Assembly}
    (hc : (argumentsCode body callee slots arguments).Gives u found)
    (hc' : (argumentsCode body' callee' slots' arguments').Gives u' found') : found' = found := by
  induction slots generalizing slots' arguments arguments' found found' with
  | nil =>
    cases List.map_eq_nil_iff.mp hs
    rw [no_arguments_shape (.inl rfl) hc, no_arguments_shape (.inl rfl) hc']
  | cons slot slots ih =>
    obtain ⟨slot', slots', rfl, hslot, hslots⟩ := List.map_eq_cons_iff.mp hs
    cases ha with
    | nil =>
      rw [no_arguments_shape (.inr rfl) hc, no_arguments_shape (.inr rfl) hc']
    | cons hargument harguments =>
      obtain ⟨offset, last, first, rest, hoffset, hfirst, hrest, rfl⟩ := arguments_shape hc
      obtain ⟨offset', last', first', rest', hoffset', hfirst', hrest', rfl⟩ := arguments_shape hc'
      obtain ⟨hreference, hplaced⟩ := Prod.mk.inj hslot
      rw [hplaced, hoffset] at hoffset'
      cases hoffset'
      rw [hreference] at hfirst'
      rw [List.flatMap_cons] at hn hn'
      obtain ⟨hna, hnr⟩ := List.forall_mem_append.mp hn
      obtain ⟨hna', hnr'⟩ := List.forall_mem_append.mp hn'
      obtain ⟨rfl, rfl⟩ := hargument.argumentCode_eq h hna hna' hfirst hfirst'
      rw [ih harguments hnr hnr' hslots hrest hrest']

mutual

/-- The code for statements that are alike is the same but for the numbers of the labels that are drawn. -/
theorem Stmt.Alike.code_shifted {s s' : Stmt} (ha : s.Alike s') (h : body.Agrees body')
    (hn : NotedIn body.context body.around s.subscripts) (hn' : NotedIn body'.context body'.around s'.subscripts)
    {before before' after after' : LabelSupply} (hd : (before'.issued : Int) = before.issued + d)
    {found found' : Assembly} (hc : (s.code body before).Gives after found)
    (hc' : (s'.code body' before').Gives after' found') : List.Forall₂ (Line.Shifted d) found found' := by
  cases ha with
  | @assign _ _ target _ value _ htarget hvalue =>
    obtain ⟨middle, last, first, rest, _, hfirst, hrest, rfl⟩ := Stmt.assign_shape hc
    obtain ⟨middle', last', first', rest', _, hfirst', hrest', rfl⟩ := Stmt.assign_shape hc'
    obtain ⟨hnt, hnv⟩ := List.forall_mem_append.mp hn
    obtain ⟨hnt', hnv'⟩ := List.forall_mem_append.mp hn'
    obtain ⟨rfl, rfl⟩ := htarget.addressCode_eq h hnt hnt' hfirst hfirst'
    obtain ⟨rfl, rfl⟩ := hvalue.valueCode_eq h hnv hnv' hrest hrest'
    refine List.rel_append (List.rel_append (Assembly.shifted_self ?_ d) (Assembly.shifted_self ?_ d)) ?_
    · exact fun line hm => (target.addressCode_straight hfirst line hm).isFixed
    · exact fun line hm => (value.valueCode_straight hrest line hm).isFixed
    · exact .cons (Line.shifted_self rfl d) .nil
  | ifThen hcondition hthen =>
    obtain ⟨first, rest, hfirst, hrest, rfl⟩ := Stmt.ifThen_shape hc
    obtain ⟨first', rest', hfirst', hrest', rfl⟩ := Stmt.ifThen_shape hc'
    obtain ⟨hnc, hnt⟩ := List.forall_mem_append.mp hn
    obtain ⟨hnc', hnt'⟩ := List.forall_mem_append.mp hn'
    refine List.rel_append (List.rel_append ?_ ?_) (.cons (.label (.generated hd)) .nil)
    · exact hcondition.conditionCode_shifted h hnc hnc' (.generated hd) hfirst hfirst'
    · exact hthen.code_shifted h hnt hnt' (by dsimp only; omega) hrest hrest'
  | @ifElse _ _ _ _ thenPart thenPart' _ _ hcondition hthen helse =>
    obtain ⟨middle, first, rest, last, hfirst, hrest, hlast, rfl⟩ := Stmt.ifElse_shape hc
    obtain ⟨middle', first', rest', last', hfirst', hrest', hlast', rfl⟩ := Stmt.ifElse_shape hc'
    obtain ⟨hparts, hne⟩ := List.forall_mem_append.mp hn
    obtain ⟨hparts', hne'⟩ := List.forall_mem_append.mp hn'
    obtain ⟨hnc, hnt⟩ := List.forall_mem_append.mp hparts
    obtain ⟨hnc', hnt'⟩ := List.forall_mem_append.mp hparts'
    have hmiddle := (thenPart.code_draws hrest).issued
    have hmiddle' := (thenPart'.code_draws hrest').issued
    have hcount := hthen.same.1
    dsimp only at hmiddle hmiddle'
    have hend : (↑(before'.issued + 1) : Int) = ↑(before.issued + 1) + d := by omega
    refine List.rel_append (List.rel_append (List.rel_append (List.rel_append ?_ ?_) ?_) ?_) ?_
    · exact hcondition.conditionCode_shifted h hnc hnc' (.generated hd) hfirst hfirst'
    · exact hthen.code_shifted h hnt hnt' (by dsimp only; omega) hrest hrest'
    · exact .cons (.instruction (.cons (.label (.generated hend)) .nil)) (.cons (.label (.generated hd)) .nil)
    · exact helse.code_shifted h hne hne' (by omega) hlast hlast'
    · exact .cons (.label (.generated hend)) .nil
  | whileDo hcondition hbody =>
    obtain ⟨first, rest, hfirst, hrest, rfl⟩ := Stmt.whileDo_shape hc
    obtain ⟨first', rest', hfirst', hrest', rfl⟩ := Stmt.whileDo_shape hc'
    obtain ⟨hnc, hnb⟩ := List.forall_mem_append.mp hn
    obtain ⟨hnc', hnb'⟩ := List.forall_mem_append.mp hn'
    have hend : (↑(before'.issued + 1) : Int) = ↑(before.issued + 1) + d := by omega
    refine List.rel_append (List.rel_append (.cons (.label (.generated hd)) ?_) ?_) ?_
    · exact hcondition.conditionCode_shifted h hnc hnc' (.generated hend) hfirst hfirst'
    · exact hbody.code_shifted h hnb hnb' (by dsimp only; omega) hrest hrest'
    · exact .cons (.instruction (.cons (.label (.generated hd)) .nil)) (.cons (.label (.generated hend)) .nil)
  | @call _ _ callee _ _ harguments =>
    obtain ⟨entry, rest, _, hentry, hrest, rfl⟩ := Stmt.call_shape hc
    obtain ⟨entry', rest', _, hentry', hrest', rfl⟩ := Stmt.call_shape hc'
    have hpassing := h.callees callee
    rw [hentry, hentry'] at hpassing
    rw [argumentsCode_eq harguments h hn hn' (Option.some.inj hpassing) hrest hrest']
    refine List.rel_append (Assembly.shifted_self ?_ d) (.cons (Line.shifted_self rfl d) .nil)
    have hlines : ∀ line ∈ rest, line.InBody 0 0 [] := argumentsCode_lines _ _ hrest
    exact fun line hm => (hlines line hm).isFixed
  | block hbody => exact codeAll_shifted hbody h hn hn' hd hc hc'
  | empty =>
    rw [(Trail.gives_pure.mp hc).2, (Trail.gives_pure.mp hc').2]
    exact .nil

theorem codeAll_shifted {stmts stmts' : List Stmt} (ha : List.Forall₂ Stmt.Alike stmts stmts') (h : body.Agrees body')
    (hn : NotedIn body.context body.around (allSubscripts stmts))
    (hn' : NotedIn body'.context body'.around (allSubscripts stmts'))
    {before before' after after' : LabelSupply} (hd : (before'.issued : Int) = before.issued + d)
    {found found' : Assembly} (hc : (codeAll body before stmts).Gives after found)
    (hc' : (codeAll body' before' stmts').Gives after' found') : List.Forall₂ (Line.Shifted d) found found' := by
  cases ha with
  | nil =>
    rw [codeAll] at hc hc'
    rw [(Trail.gives_pure.mp hc).2, (Trail.gives_pure.mp hc').2]
    exact .nil
  | @cons stmt stmt' _ _ hstmt hrest =>
    obtain ⟨middle, first, rest, hs, hr, rfl⟩ := codeAll_shape hc
    obtain ⟨middle', first', rest', hs', hr', rfl⟩ := codeAll_shape hc'
    obtain ⟨hns, hnr⟩ := List.forall_mem_append.mp hn
    obtain ⟨hns', hnr'⟩ := List.forall_mem_append.mp hn'
    have hmiddle := (stmt.code_draws hs).issued
    have hmiddle' := (stmt'.code_draws hs').issued
    have hcount := hstmt.same.1
    exact List.rel_append (hstmt.code_shifted h hns hns' hd hs hs')
      (codeAll_shifted hrest h hnr hnr' (by omega) hr hr')

end

/-- The code for procedures that are alike and have the same frame. -/
theorem Procedure.Alike.code_shifted {procedure procedure' : Procedure} (ha : procedure.Alike procedure')
    (h : body.Agrees body') (hn : NotedIn body.context body.around (allSubscripts procedure.body))
    (hn' : NotedIn body'.context body'.around (allSubscripts procedure'.body)) {frame : FrameLayout}
    {before before' after after' : LabelSupply} (hd : (before'.issued : Int) = before.issued + d)
    (hc : (procedure.code body.context body.scope frame before).Gives after found)
    (hc' : (procedure'.code body'.context body'.scope frame before').Gives after' found') :
    List.Forall₂ (Line.Shifted d) found found' := by
  obtain ⟨inner, hi, rfl⟩ := Procedure.code_shape hc
  obtain ⟨inner', hi', rfl⟩ := Procedure.code_shape hc'
  rw [ha.name]
  have hreturn : ∀ mnemonic, ∀ line ∈ returnAddressLines frame mnemonic, line.isFixed := by
    intro mnemonic
    unfold returnAddressLines
    cases frame.savedReturnAddress with
    | none => exact fun line hm => absurd hm List.not_mem_nil
    | some offset => exact List.forall_mem_singleton.mpr rfl
  refine List.rel_append (List.rel_append (Assembly.shifted_self ?_ d) ?_) (Assembly.shifted_self ?_ d)
  · simp only [prologue, List.forall_mem_cons]
    exact ⟨rfl, rfl, rfl, rfl, rfl, hreturn .stw⟩
  · exact codeAll_shifted ha.body h hn hn' hd hi hi'
  · simp only [epilogue, List.forall_mem_append, List.forall_mem_cons]
    exact ⟨hreturn .ldw, rfl, rfl, rfl, fun line hm => absurd hm List.not_mem_nil⟩

end

end SplLang
