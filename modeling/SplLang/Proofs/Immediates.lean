import SplLang.Proofs.Convention
import SplLang.Proofs.Subscripts

/-! The numbers that stand in instructions. Frames, offsets, slots and literals are signed words; the lengths and
element sizes of arrays need not be. -/
namespace SplLang
open Machine

@[simp] def Machine.Operand.value? : Operand → Option Int
  | .imm value => some value
  | _ => none

/-- The immediate operands in a line. -/
@[simp] def Machine.Line.immediates : Line → List Int
  | .instruction code => code.operands.filterMap (·.value?)
  | _ => []

/-- The immediate operands in a piece of code, in their order. -/
def Machine.Assembly.immediates (code : Assembly) : List Int := code.flatMap (·.immediates)

/-- What a signed word can hold. -/
def Signed (value : Int) : Prop := -2^31 ≤ value ∧ value < 2^31

instance (value : Int) : Decidable (Signed value) := inferInstanceAs (Decidable (_ ∧ _))

private theorem signed_toInt (value : Int32) : Signed value.toInt := ⟨value.le_toInt, value.toInt_lt⟩

private theorem signed_natCast {n : Nat} : Signed (n : Int) ↔ n < 2^31 := by
  unfold Signed
  omega

/-- All immediate operands are among the admitted numbers. -/
def Machine.Assembly.Holds (admitted : Int → Prop) (code : Assembly) : Prop :=
  ∀ value ∈ code.immediates, admitted value

section
variable {admitted : Int → Prop} {first rest found : Assembly}

@[simp] theorem holds_nil : Assembly.Holds admitted [] := fun _ h => absurd h List.not_mem_nil

@[simp] theorem holds_append :
    Assembly.Holds admitted (first ++ rest) ↔ Assembly.Holds admitted first ∧ Assembly.Holds admitted rest := by
  unfold Assembly.Holds Assembly.immediates
  rw [List.flatMap_append, List.forall_mem_append]

@[simp] theorem holds_cons {line : Line} : Assembly.Holds admitted (line :: found) ↔
    (∀ value ∈ line.immediates, admitted value) ∧ Assembly.Holds admitted found := by
  unfold Assembly.Holds Assembly.immediates
  rw [List.flatMap_cons, List.forall_mem_append]

@[simp] theorem immediates_instr {mnemonic : Mnemonic} {operands : List Operand} :
    (instr mnemonic operands).immediates = operands.filterMap (·.value?) := rfl

end

/-- The length and the element size of the array type that is remembered for the array of a subscript. -/
def Subscript.bounds? (context : Context) (sub : Subscript) : Option (UInt32 × UInt32) :=
  (context.findings.exprs.at? sub.array.node.id).bind context.types.bounds?

/-- The numbers are those that instructions for the body can name, the bounds of subscripts apart. -/
structure Body.Admits (body : Body) (admitted : Int → Prop) : Prop where
  signed : ∀ value, Signed value → admitted value
  slots : ∀ ⦃callee entry⦄, body.context.scopes.callee? body.scope callee = some entry →
    ∀ slot ∈ entry.parameters, ∀ offset, slot.offset = some offset → offset.toNat < 2^31

/-- The bounds of the subscripts are among the numbers. -/
def BoundsAdmitted (context : Context) (admitted : Int → Prop) (subscripts : List Subscript) : Prop :=
  ∀ sub ∈ subscripts, ∀ length size, sub.bounds? context = some (length, size) →
    admitted length.toNat ∧ admitted size.toNat

section
variable {body : Body} {admitted : Int → Prop} {scratch result : Scratch} {found : Assembly}

theorem Body.Admits.zero (hb : body.Admits admitted) : admitted 0 := hb.signed 0 (by decide)

private theorem followCode_holds (hb : body.Admits admitted) {byReference : Bool} {register : Register} :
    Assembly.Holds admitted (followCode byReference register) := by
  cases byReference <;> simp [followCode, hb.zero]

mutual

private theorem Variable.addressCode_holds (hb : body.Admits admitted) (v : Variable) {scratch result : Scratch}
    {found : Assembly} (hs : BoundsAdmitted body.context admitted v.subscripts)
    (h : (v.addressCode body scratch).Gives result found) : found.Holds admitted := by
  cases v with
  | named node name =>
    obtain ⟨offset, _, _, _, _, rfl⟩ := Variable.named_shape h
    have hoffset := hb.signed _ (signed_toInt offset)
    simp [hoffset, followCode_holds hb]
  | element node array index =>
    obtain ⟨element, length, _, _, _, _, hn, ha, hi, _, _, rfl⟩ := Variable.element_shape h
    obtain ⟨hs, hown⟩ := List.forall_mem_append.mp hs
    obtain ⟨harray, hindex⟩ := List.forall_mem_append.mp hs
    obtain ⟨hlength, hsize⟩ := List.forall_mem_singleton.mp hown _ _ (noted?_bounds hn)
    have hfirst := array.addressCode_holds hb harray ha
    have hrest := index.valueCode_holds hb hindex hi
    simp [hfirst, hrest, elementCode, hlength, hsize]

private theorem Expr.valueCode_holds (hb : body.Admits admitted) (e : Expr) {scratch result : Scratch}
    {found : Assembly} (hs : BoundsAdmitted body.context admitted e.subscripts)
    (h : (e.valueCode body scratch).Gives result found) : found.Holds admitted := by
  cases e with
  | literal node value =>
    obtain ⟨_, _, rfl⟩ := Expr.literal_shape h
    have hvalue := hb.signed _ (signed_toInt value)
    simp [hvalue]
  | load node source =>
    obtain ⟨_, hsource, rfl⟩ := Expr.load_shape h
    have haddress := source.addressCode_holds hb hs hsource
    simp [haddress, hb.zero]
  | binary node op left right =>
    obtain ⟨_, _, _, _, _, _, hl, hr, _, rfl⟩ := Expr.binary_shape h
    obtain ⟨hleft, hright⟩ := List.forall_mem_append.mp hs
    have hfirst := left.valueCode_holds hb hleft hl
    have hrest := right.valueCode_holds hb hright hr
    simp [hfirst, hrest]

end

private theorem Expr.conditionCode_holds (hb : body.Admits admitted) {condition : Expr} {target : Label} {u : Unit}
    (hs : BoundsAdmitted body.context admitted condition.subscripts)
    (h : (condition.conditionCode body target).Gives u found) : found.Holds admitted := by
  obtain ⟨_, _, left, right, _, _, _, _, rfl, hl, hr, rfl⟩ := Expr.condition_shape h
  obtain ⟨hleft, hright⟩ := List.forall_mem_append.mp hs
  simp [left.valueCode_holds hb hleft hl, right.valueCode_holds hb hright hr]

private theorem Expr.argumentCode_holds (hb : body.Admits admitted) {argument : Expr} {byReference : Bool}
    (hs : BoundsAdmitted body.context admitted argument.subscripts)
    (h : (argument.argumentCode body byReference).Gives result found) : found.Holds admitted := by
  cases byReference with
  | false => exact argument.valueCode_holds hb hs (Expr.value_argument_shape h)
  | true =>
    obtain ⟨_, source, rfl, hsource⟩ := Expr.reference_argument_shape h
    exact source.addressCode_holds hb hs hsource

private theorem argumentsCode_holds (hb : body.Admits admitted) {callee : Name} (slots : List Slot)
    (arguments : List Expr) {u : Unit} {found : Assembly}
    (hslots : ∀ slot ∈ slots, ∀ offset, slot.offset = some offset → offset.toNat < 2^31)
    (hs : BoundsAdmitted body.context admitted (arguments.flatMap (·.subscripts)))
    (h : (argumentsCode body callee slots arguments).Gives u found) : found.Holds admitted := by
  induction slots generalizing arguments found with
  | nil =>
    rw [no_arguments_shape (.inl rfl) h]
    exact holds_nil
  | cons slot slots ih =>
    cases arguments with
    | nil =>
      rw [no_arguments_shape (.inr rfl) h]
      exact holds_nil
    | cons argument arguments =>
      obtain ⟨offset, _, _, _, ho, ha, hr, rfl⟩ := arguments_shape h
      obtain ⟨hslot, hslots⟩ := List.forall_mem_cons.mp hslots
      obtain ⟨hargument, harguments⟩ := List.forall_mem_append.mp hs
      have hoffset := hb.signed _ (signed_natCast.mpr (hslot offset ho))
      simp [Expr.argumentCode_holds hb hargument ha, hoffset, ih arguments hslots harguments hr]

mutual

private theorem Stmt.code_holds (hb : body.Admits admitted) (s : Stmt) {before after : LabelSupply} {found : Assembly}
    (hs : BoundsAdmitted body.context admitted s.subscripts) (h : (s.code body before).Gives after found) :
    found.Holds admitted := by
  cases s with
  | assign position target value =>
    obtain ⟨_, _, _, _, _, ht, hv, rfl⟩ := Stmt.assign_shape h
    obtain ⟨htarget, hvalue⟩ := List.forall_mem_append.mp hs
    simp [target.addressCode_holds hb htarget ht, value.valueCode_holds hb hvalue hv, hb.zero]
  | ifThen position condition thenPart =>
    obtain ⟨_, _, hc, ht, rfl⟩ := Stmt.ifThen_shape h
    obtain ⟨hcondition, hthen⟩ := List.forall_mem_append.mp hs
    simp [Expr.conditionCode_holds hb hcondition hc, thenPart.code_holds hb hthen ht]
  | ifElse position condition thenPart elsePart =>
    obtain ⟨_, _, _, _, hc, ht, he, rfl⟩ := Stmt.ifElse_shape h
    obtain ⟨hs, helse⟩ := List.forall_mem_append.mp hs
    obtain ⟨hcondition, hthen⟩ := List.forall_mem_append.mp hs
    simp [Expr.conditionCode_holds hb hcondition hc, thenPart.code_holds hb hthen ht, elsePart.code_holds hb helse he]
  | whileDo position condition loopBody =>
    obtain ⟨_, _, hc, hl, rfl⟩ := Stmt.whileDo_shape h
    obtain ⟨hcondition, hbody⟩ := List.forall_mem_append.mp hs
    simp [Expr.conditionCode_holds hb hcondition hc, loopBody.code_holds hb hbody hl]
  | call position callee arguments =>
    obtain ⟨entry, _, _, he, ha, rfl⟩ := Stmt.call_shape h
    simp [argumentsCode_holds hb _ _ (hb.slots he) hs ha]
  | block position stmts =>
    rw [Stmt.code] at h
    exact codeAll_holds hb stmts hs h
  | empty position =>
    rw [Stmt.code] at h
    rw [(Trail.gives_pure.mp h).2]
    exact holds_nil

private theorem codeAll_holds (hb : body.Admits admitted) (stmts : List Stmt) {before after : LabelSupply}
    {found : Assembly} (hs : BoundsAdmitted body.context admitted (allSubscripts stmts))
    (h : (codeAll body before stmts).Gives after found) : found.Holds admitted := by
  cases stmts with
  | nil =>
    rw [codeAll] at h
    rw [(Trail.gives_pure.mp h).2]
    exact holds_nil
  | cons stmt stmts =>
    obtain ⟨_, _, _, hf, hr, rfl⟩ := codeAll_shape h
    obtain ⟨hstmt, hstmts⟩ := List.forall_mem_append.mp hs
    simp [stmt.code_holds hb hstmt hf, codeAll_holds hb stmts hstmts hr]

end

/-- All numbers of a frame are signed words. -/
theorem FrameLayout.of?_signed {localArea : UInt32} {area : OutgoingArea} {frame : FrameLayout}
    (h : FrameLayout.of? localArea area = some frame) :
    Signed frame.size.toNat ∧ Signed frame.savedFramePointer.toNat := by
  obtain ⟨hsize, hpointer, -⟩ := FrameLayout.of?_exact h
  have hlt : exactSize localArea area < 2^31 := by
    rw [← Nat.not_le, ← of?_eq_none_iff, h]
    exact Option.some_ne_none frame
  rw [hsize, hpointer, signed_natCast, signed_natCast]
  refine ⟨hlt, ?_⟩
  cases area with
  | noCalls => decide
  | bytes outgoing =>
    have hbytes : localArea.toNat + outgoing.toNat + 8 < 2^31 := hlt
    show outgoing.toNat + 4 < 2^31
    omega

private theorem returnAddressLines_holds (hb : body.Admits admitted) {frame : FrameLayout} {mnemonic : Mnemonic} :
    Assembly.Holds admitted (returnAddressLines frame mnemonic) := by
  unfold returnAddressLines
  cases frame.savedReturnAddress with
  | none => exact holds_nil
  | some offset =>
    have hoffset := hb.signed _ (signed_toInt offset)
    simp [hoffset]

private theorem Procedure.code_holds {context : Context} {scope : ScopeId} (hb : Body.Admits ⟨context, scope⟩ admitted)
    {procedure : Procedure} {frame : FrameLayout} (hsize : Signed frame.size.toNat)
    (hpointer : Signed frame.savedFramePointer.toNat)
    (hs : BoundsAdmitted context admitted (allSubscripts procedure.body))
    {before after : LabelSupply} (h : (procedure.code context scope frame before).Gives after found) :
    found.Holds admitted := by
  obtain ⟨inner, hi, rfl⟩ := Procedure.code_shape h
  have hinner := codeAll_holds hb _ hs hi
  have hframe := hb.signed _ hsize
  have hsaved := hb.signed _ hpointer
  simp [prologue, epilogue, returnAddressLines_holds hb, hinner, hframe, hsaved]

end

section
variable {context : Context} {sigs : List Signature} {area : Signature → OutgoingArea} {program : Program}
  {admitted : Int → Prop}

/-- In a prepared program the slots of all arguments are signed words. -/
theorem Prepared.admits (h : Prepared context sigs area) {sig : Signature} (hs : sig ∈ sigs)
    (hsigned : ∀ value, Signed value → admitted value) : Body.Admits ⟨context, sig.scope⟩ admitted where
  signed := hsigned
  slots := by
    intro callee entry he slot hm offset ho
    have hglobal := (h.seen.callee?_iff hs).mp he
    have hcallable := h.callable hglobal
    have hparameters : 4 * entry.parameters.length < 2^31 := by
      rcases hglobal with ⟨p, hp, -, rfl⟩ | ⟨other, hother, -, rfl⟩
      · have hlibrary : ∀ p ∈ library, 4 * p.entry.parameters.length < 2^31 := by decide
        exact hlibrary p hp
      · have hlength : (other.framedEntry context.types area).parameters.length = other.parameters.length := by
          show other.placedSlots.length = _
          rw [Signature.placedSlots, List.length_map, List.length_zipIdx]
        rw [hlength]
        exact (h.bounded other hother).parameters
    obtain ⟨i, hi⟩ := List.mem_iff_getElem?.mp hm
    obtain ⟨hlt, -⟩ := List.getElem?_eq_some_iff.mp hi
    have hoffset := hcallable.slotted.get hi
    rw [ho, Nat.zero_add] at hoffset
    rw [Option.some.inj hoffset, UInt32.toNat_ofNat_of_lt' (show 4 * i < 2^32 by omega)]
    omega

private theorem proceduresCode_holds (h : Prepared context sigs area) (hsigned : ∀ value, Signed value → admitted value)
    {members : List Signature} (hm : ∀ sig ∈ members, sig ∈ sigs)
    (hs : ∀ sig ∈ members, BoundsAdmitted context admitted (allSubscripts sig.procedure.body))
    {before after : LabelSupply} {found : Assembly}
    (hg : (proceduresCode context before (members.map (·.procedure))).Gives after found) : found.Holds admitted := by
  induction members generalizing before found with
  | nil =>
    rw [(Trail.gives_pure.mp hg).2]
    exact holds_nil
  | cons sig members ih =>
    obtain ⟨hsig, hmembers⟩ := List.forall_mem_cons.mp hm
    obtain ⟨hbounds, hothers⟩ := List.forall_mem_cons.mp hs
    obtain ⟨scope, frame, _, first, rest, hframe, hf, hr, rfl⟩ := procedures_shape hg
    obtain ⟨entry, _, _, hentry, hscope, -, -, hlaid, -⟩ := Procedure.frame_shape hframe
    rw [h.seen.procedure?_of_mem hsig] at hentry
    cases hentry
    cases hscope
    obtain ⟨hsize, hpointer⟩ := FrameLayout.of?_signed hlaid
    simp [Procedure.code_holds (h.admits hsig hsigned) hsize hpointer hbounds hf, ih hmembers hothers hr]

/-- All numbers in the code of a program are signed words or bounds of its subscripts. -/
theorem Prepared.code_holds (h : Prepared context sigs area) (hsigs : sigs.map (·.procedure) = program.procedures)
    (hsigned : ∀ value, Signed value → admitted value)
    (hs : BoundsAdmitted context admitted ((subscriptsIn program.procedures).map (·.2))) {supply : LabelSupply}
    {assembly : Assembly} (hg : (program.code context).Gives supply assembly) : assembly.Holds admitted := by
  obtain ⟨rest, hr, rfl⟩ := Program.code_shape hg
  have hheader : Assembly.Holds admitted header := by
    have hnone : Assembly.immediates header = [] := by decide
    intro value hm
    rw [hnone] at hm
    cases hm
  refine holds_append.mpr ⟨hheader, ?_⟩
  rw [← hsigs] at hr hs
  refine proceduresCode_holds h hsigned (fun _ hm => hm) (fun sig hm sub hsub => hs sub ?_) hr
  refine List.mem_map.mpr ⟨(sig.procedure, sub), ?_, rfl⟩
  exact List.mem_flatMap.mpr ⟨_, List.mem_map_of_mem hm, List.mem_map_of_mem hsub⟩

/-- The length and the element size of each check stand in the code. -/
theorem Checked.bounds_hold {found : Assembly} {checks : List BoundCheck} (h : Checked context found checks)
    (hf : found.Holds admitted) :
    ∀ check ∈ checks, admitted check.length.toNat ∧ admitted check.elementSize.toNat := by
  induction h with
  | nil => exact fun _ hm => absurd hm List.not_mem_nil
  | plain _ => exact fun _ hm => absurd hm List.not_mem_nil
  | append _ _ ih ih' =>
    obtain ⟨hfirst, hrest⟩ := holds_append.mp hf
    exact List.forall_mem_append.mpr ⟨ih hfirst, ih' hrest⟩
  | element check _ _ _ _ ih ih' =>
    obtain ⟨hf, hown⟩ := holds_append.mp hf
    obtain ⟨hfirst, hrest⟩ := holds_append.mp hf
    refine List.forall_mem_append.mpr ⟨List.forall_mem_append.mpr ⟨ih hfirst, ih' hrest⟩, ?_⟩
    refine List.forall_mem_singleton.mpr ⟨hown _ ?_, hown _ ?_⟩ <;> simp [elementCode, Assembly.immediates]

/-- Whatever is remembered for the array of a subscript, its length and element size together fit the address
space. -/
theorem TypeTable.Built.bounds_fit {types : TypeTable} (hb : types.Built) {type : TypeId} {length size : UInt32}
    (h : types.bounds? type = some (length, size)) : length.toNat * size.toNat < 2^32 := by
  obtain ⟨⟨element, length⟩, ha, he⟩ := Option.map_eq_some_iff.mp h
  cases he
  rw [← hb.byteSize_array ha]
  exact (types.byteSize type).toNat_lt

/-- The immediate operands are signed words, unless they are bounds of arrays. -/
structure Program.SignedBesideBounds (program : Program) (context : Context) (assembly : Assembly) : Prop where
  signed : ∀ value ∈ assembly.immediates, Signed value ∨ ∃ occurrence ∈ subscriptsIn program.procedures,
    ∃ length size, occurrence.2.bounds? context = some (length, size) ∧ (value = length.toNat ∨ value = size.toNat)
  bounds : ∀ occurrence ∈ subscriptsIn program.procedures, ∃ length size,
    occurrence.2.bounds? context = some (length, size) ∧ length.toNat * size.toNat < 2^32
  signed_iff : (∀ value ∈ assembly.immediates, Signed value) ↔ ∀ occurrence ∈ subscriptsIn program.procedures,
    ∀ length size, occurrence.2.bounds? context = some (length, size) → length.toNat < 2^31 ∧ size.toNat < 2^31

/-- The immediate operands of a compiled program are signed words, apart from the lengths and the element sizes
that the checks of subscripts name. These stand in the code for every subscript, and a length and an element
size together fit the address space only. So all immediates are signed words exactly if the arrays of all
subscripts have lengths and element sizes that are. -/
theorem compile_immediates {c : Compilation} {assembly : Assembly} (hc : (compile program .generated).1 = .ok c)
    (ha : c.assembly = some assembly) : program.SignedBesideBounds c.context assembly := by
  obtain ⟨sigs, area, found, supply, hsigs, hprepared, -, hcode⟩ := compile_prepared hc ha
  obtain ⟨checks, hchecked, hall⟩ := hprepared.code_checks hsigs hcode
  -- Each subscript has a check, which carries its bounds.
  have hcheck : ∀ occurrence ∈ subscriptsIn program.procedures, ∃ check ∈ checks,
      occurrence.2.bounds? c.context = some (check.length, check.elementSize) := by
    intro occurrence ho
    obtain ⟨check, hm, _, -, hof⟩ := forall₂_exists_of_mem hall ho
    exact ⟨check, hm, hof.bounds⟩
  refine ⟨?_, ?_, ?_, ?_⟩
  · refine hprepared.code_holds hsigs (fun _ h => .inl h) ?_ hcode
    intro sub hsub length size hbounds
    obtain ⟨occurrence, ho, rfl⟩ := List.mem_map.mp hsub
    exact ⟨.inr ⟨occurrence, ho, length, size, hbounds, .inl rfl⟩,
      .inr ⟨occurrence, ho, length, size, hbounds, .inr rfl⟩⟩
  · intro occurrence ho
    obtain ⟨check, -, hbounds⟩ := hcheck occurrence ho
    obtain ⟨type, -, hfits⟩ := Option.bind_eq_some_iff.mp hbounds
    exact ⟨_, _, hbounds, hprepared.built.bounds_fit hfits⟩
  · intro hsigned occurrence ho length size hbounds
    obtain ⟨check, hm, hown⟩ := hcheck occurrence ho
    cases hown.symm.trans hbounds
    obtain ⟨hlength, hsize⟩ := hchecked.bounds_hold hsigned check hm
    exact ⟨signed_natCast.mp hlength, signed_natCast.mp hsize⟩
  · intro hbounds
    refine hprepared.code_holds hsigs (fun _ h => h) ?_ hcode
    intro sub hsub length size hown
    obtain ⟨occurrence, ho, rfl⟩ := List.mem_map.mp hsub
    obtain ⟨hlength, hsize⟩ := hbounds occurrence ho length size hown
    exact ⟨signed_natCast.mpr hlength, signed_natCast.mpr hsize⟩

end

/-- A local array of the greatest length there is, whose elements have no bytes. -/
def longestArray : Program where
  position := ⟨1, 1⟩
  declarations := [
    .procedure ⟨⟨1, 1⟩, "main", [],
      [⟨⟨2, 3⟩, "a", .array ⟨0, ⟨2, 10⟩⟩ 4294967295 (.array ⟨1, ⟨2, 33⟩⟩ 0 (.named ⟨2, ⟨2, 46⟩⟩ "int"))⟩],
      [.assign ⟨3, 3⟩
        (.element ⟨3, ⟨3, 3⟩⟩ (.element ⟨4, ⟨3, 3⟩⟩ (.named ⟨5, ⟨3, 3⟩⟩ "a") (.literal ⟨6, ⟨3, 5⟩⟩ 0))
          (.literal ⟨7, ⟨3, 8⟩⟩ 0))
        (.literal ⟨8, ⟨3, 14⟩⟩ 1)]⟩]

theorem longestArray_immediates : ∃ c assembly, (compile longestArray .generated).1 = .ok c ∧
    c.assembly = some assembly ∧ longestArray.SignedBesideBounds c.context assembly := by
  obtain ⟨c, assembly, hc, ha⟩ := compile_of_isOk (show (compile longestArray .generated).1.isOk by decide +kernel)
  exact ⟨c, assembly, hc, ha, compile_immediates hc ha⟩

/-- The check of the first subscript names the length. -/
theorem longestArray_not_signed : ∃ c assembly, (compile longestArray .generated).1 = .ok c ∧
    c.assembly = some assembly ∧ ¬ ∀ value ∈ assembly.immediates, Signed value := by
  obtain ⟨c, assembly, hc, ha⟩ := compile_of_isOk (show (compile longestArray .generated).1.isOk by decide +kernel)
  have hcode : ((compile longestArray .generated).1.toOption.bind (·.assembly)).any
      fun code => 4294967295 ∈ code.immediates := by decide +kernel
  rw [hc] at hcode
  have hmem : 4294967295 ∈ assembly.immediates := by simpa [Except.toOption, ha] using hcode
  exact ⟨c, assembly, hc, ha, fun hall => absurd (hall _ hmem) (by decide)⟩

end SplLang
