import SplLang.Proofs.Lines
import SplLang.Proofs.Prepared

/-! Which labels the lines of a program name: labels that it defines, library procedures and the
routine for subscripts out of bounds. -/
namespace SplLang
open Machine

/-- The line is no directive, and each label in it is allowed. -/
def Machine.Line.NamesOnly (allowed : Label → Prop) : Line → Prop
  | .label l => allowed l
  | .instruction i => ∀ l, .label l ∈ i.operands → allowed l
  | .directive _ => False
  | .blank => True

namespace Machine.Assembly

/-- No line is a directive, and each label in the code is allowed. -/
def NamesOnly (allowed : Label → Prop) (assembly : Assembly) : Prop :=
  ∀ line ∈ assembly, line.NamesOnly allowed

section
variable {allowed : Label → Prop} {first rest : Assembly}

@[simp]
theorem namesOnly_nil : NamesOnly allowed [] := by
  intro line hl
  cases hl

@[simp]
theorem namesOnly_append :
    NamesOnly allowed (first ++ rest) ↔ NamesOnly allowed first ∧ NamesOnly allowed rest :=
  List.forall_mem_append

@[simp]
theorem namesOnly_cons {line : Line} :
    NamesOnly allowed (line :: rest) ↔ line.NamesOnly allowed ∧ NamesOnly allowed rest :=
  List.forall_mem_cons

end
end Machine.Assembly
open Machine.Assembly

section
variable {allowed : Label → Prop} {body : Body} {found : Assembly}

@[simp]
theorem namesOnly_label {l : Label} : (Line.label l).NamesOnly allowed ↔ allowed l := .rfl

@[simp]
theorem namesOnly_blank : Line.blank.NamesOnly allowed := trivial

@[simp]
theorem namesOnly_instr {mnemonic : Mnemonic} {operands : List Operand} :
    (instr mnemonic operands).NamesOnly allowed ↔ ∀ l, .label l ∈ operands → allowed l := .rfl

private theorem Machine.Line.Straight.namesOnly {line : Line} (h : line.Straight) (he : allowed .indexError) :
    line.NamesOnly allowed := by
  cases h with
  | check index bound => simp [he]
  | _ => simp

/-- The generated labels between two states of the supply are allowed. -/
def Draws.Allowed (allowed : Label → Prop) (before after : LabelSupply) : Prop :=
  ∀ n, before.issued ≤ n → n < after.issued → allowed (.generated n)

private theorem Machine.Line.InBody.namesOnly {line : Line} {before after : LabelSupply} {callees : List Name}
    (h : line.InBody before.issued after.issued callees) (he : allowed .indexError)
    (hd : Draws.Allowed allowed before after) (hc : ∀ name ∈ callees, allowed (.named name)) :
    line.NamesOnly allowed := by
  cases h with
  | straight hs => exact hs.namesOnly he
  | store value base offset => simp
  | branch comparison left right hn hlt => simp [hd _ hn hlt]
  | jump hn hlt => simp [hd _ hn hlt]
  | call hm => simp [hc _ hm]
  | label hn hlt => exact hd _ hn hlt

/-- Code for statements names the labels that it draws and the procedures that it calls. -/
theorem codeAll_names (he : allowed .indexError) (stmts : List Stmt) {before after : LabelSupply}
    (h : (codeAll body before stmts).Gives after found) (hd : Draws.Allowed allowed before after)
    (hc : ∀ name ∈ allCallees stmts, allowed (.named name)) : NamesOnly allowed found :=
  fun line hm => (codeAll_lines stmts h line hm).namesOnly he hd hc

@[simp]
theorem namesOnly_returnAddressLines {frame : FrameLayout} {mnemonic : Mnemonic} :
    NamesOnly allowed (returnAddressLines frame mnemonic) := by
  unfold returnAddressLines
  cases frame.savedReturnAddress <;> simp

/-- The names of the library and of the procedures, the routine for subscripts and the labels that
the program draws. -/
def Program.Symbol (program : Program) (l : Label) : Prop :=
  (∃ p ∈ library, l = .named p.name) ∨ (∃ p ∈ program.procedures, l = p.label) ∨
    l = .indexError ∨ ∃ n < program.labelCount, l = .generated n

/-- A line behind the header exports a procedure or holds code. -/
def Program.CodeLine (program : Program) (line : Line) : Prop :=
  (∃ p ∈ program.procedures, line = .directive (".export " ++ p.name)) ∨ line.NamesOnly program.Symbol

private theorem Procedure.code_names {program : Program} {context : Context} {scope : ScopeId}
    {frame : FrameLayout} {procedure : Procedure} {before after : LabelSupply}
    (h : (procedure.code context scope frame before).Gives after found)
    (hp : procedure ∈ program.procedures) (hd : Draws.Allowed program.Symbol before after)
    (hc : ∀ name ∈ allCallees procedure.body, program.Symbol (.named name)) :
    ∀ line ∈ found, program.CodeLine line := by
  obtain ⟨inner, hi, rfl⟩ := Procedure.code_shape h
  have hlabel : program.Symbol procedure.label := .inr (.inl ⟨procedure, hp, rfl⟩)
  have hinner := codeAll_names (.inr (.inr (.inl rfl))) procedure.body hi hd hc
  have hcode : NamesOnly program.Symbol (.label procedure.label :: prologue frame ++ inner ++ epilogue frame) := by
    simp [prologue, epilogue, hlabel, hinner]
  intro line hl
  rcases List.mem_cons.mp hl with rfl | hl
  · exact .inl ⟨procedure, hp, rfl⟩
  · exact .inr (hcode line hl)

private theorem proceduresCode_names {program : Program} {context : Context} {procedures : List Procedure}
    {before after : LabelSupply} {found : Assembly}
    (h : (proceduresCode context before procedures).Gives after found)
    (hp : ∀ p ∈ procedures, p ∈ program.procedures) (hd : Draws.Allowed program.Symbol before after)
    (hc : ∀ p ∈ procedures, ∀ name ∈ allCallees p.body, program.Symbol (.named name)) :
    ∀ line ∈ found, program.CodeLine line := by
  induction procedures generalizing before found with
  | nil =>
    rw [proceduresCode] at h
    rw [(Trail.gives_pure.mp h).2]
    intro line hl
    cases hl
  | cons procedure procedures ih =>
    obtain ⟨_, _, middle, first, rest, _, hf, hr, rfl⟩ := procedures_shape h
    obtain ⟨inner, ⟨hcount, _⟩, _⟩ := Procedure.code_labels hf
    have hcount' := (proceduresCode_labels hr).1
    have hfirst := Procedure.code_names hf (hp _ List.mem_cons_self)
      (fun n hn hlt => hd n hn (by omega)) (hc _ List.mem_cons_self)
    have hrest := ih hr (fun p hm => hp p (List.mem_cons_of_mem _ hm))
      (fun n hn hlt => hd n (by omega) hlt) fun p hm => hc p (List.mem_cons_of_mem _ hm)
    intro line hl
    rcases List.mem_append.mp hl with hl | hl
    · rcases List.mem_cons.mp hl with rfl | hl
      · exact .inr trivial
      · exact hfirst line hl
    · exact hrest line hl

theorem Prepared.names {context : Context} {sigs : List Signature} {area : Signature → OutgoingArea}
    {program : Program} (h : Prepared context sigs area) (hsigs : sigs.map (·.procedure) = program.procedures) :
    (program.procedures.map (·.name)).Nodup := by
  rw [← hsigs, List.map_map]
  exact h.seen.names

/-- Behind the header, the code of a prepared program names its symbols only. -/
theorem Prepared.code_names {context : Context} {sigs : List Signature}
    {area : Signature → OutgoingArea} {program : Program} {supply : LabelSupply}
    (h : Prepared context sigs area) (hsigs : sigs.map (·.procedure) = program.procedures)
    (hg : (program.code context).Gives supply found) :
    ∃ rest, found = header ++ rest ∧ ∀ line ∈ rest, program.CodeLine line := by
  obtain ⟨rest, hr, rfl⟩ := Program.code_shape hg
  refine ⟨rest, rfl, proceduresCode_names hr (fun _ hp => hp) ?_ ?_⟩
  · intro n _ hlt
    rw [(proceduresCode_labels hr).1, LabelSupply.new, Nat.zero_add] at hlt
    exact .inr (.inr (.inr ⟨n, hlt, rfl⟩))
  · intro p hp name hname
    rw [← hsigs] at hp
    obtain ⟨sig, hs, rfl⟩ := List.mem_map.mp hp
    obtain ⟨size, hsize, _⟩ := h.covered sig hs name hname
    obtain ⟨entry, hentry, _⟩ := Option.bind_eq_some_iff.mp hsize
    rcases (h.seen.callee?_iff hs).mp hentry with ⟨lib, hl, hn, _⟩ | ⟨other, ho, hn, _⟩
    · exact .inl ⟨lib, hl, by rw [hn]⟩
    · refine .inr (.inl ⟨other.procedure, ?_, ?_⟩)
      · rw [← hsigs]
        exact List.mem_map_of_mem ho
      · rw [Procedure.label, hn]

end
end SplLang
