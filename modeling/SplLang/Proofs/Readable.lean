import SplLang.Proofs.Linkable

/-! Reading assembly text back. The lines, the parts of an instruction and its operands can be told apart,
so that the text of a program determines its lines. -/
namespace SplLang
open Machine

/-- The number that is written in decimal digits. -/
def readNumber (digits : List Char) : Nat := Nat.ofDigitChars 10 digits 0

/-- An `L` and a number. -/
def isNumbered : List Char → Bool
  | 'L' :: digits => !digits.isEmpty && digits.all (·.isDigit)
  | _ => false

/-- The label is not taken for another one: it is called by an identifier, which is no generated one. -/
def Machine.Label.Readable : Label → Prop
  | .generated _ => True
  | .named name => name.isIdentifier ∧ isNumbered name.toList = false

def Machine.Operand.Readable : Operand → Prop
  | .label target => target.Readable
  | _ => True

/-- A directive starts with a dot and stays on its line; labels can be read. -/
def Machine.Line.Readable : Line → Prop
  | .directive words => words.toList.head? = some '.' ∧ '\n' ∉ words.toList
  | .label target => target.Readable
  | .instruction code => ∀ operand ∈ code.operands, operand.Readable
  | .blank => True

instance : DecidablePred Label.Readable
  | .generated _ => inferInstanceAs (Decidable True)
  | .named _ => inferInstanceAs (Decidable (_ ∧ _))

instance : DecidablePred Operand.Readable
  | .label target => inferInstanceAs (Decidable target.Readable)
  | .reg _ => inferInstanceAs (Decidable True)
  | .imm _ => inferInstanceAs (Decidable True)

instance : DecidablePred Line.Readable
  | .directive _ => inferInstanceAs (Decidable (_ ∧ _))
  | .label target => inferInstanceAs (Decidable target.Readable)
  | .instruction code => inferInstanceAs (Decidable (∀ operand ∈ code.operands, operand.Readable))
  | .blank => inferInstanceAs (Decidable True)

def readLabel (word : List Char) : Label :=
  if isNumbered word then .generated (readNumber word.tail) else .named (String.ofList word)

def readOperand : List Char → Operand
  | '$' :: digits => .reg ⟨readNumber digits⟩
  | '-' :: digits => .imm (-readNumber digits)
  | word => if word.head?.any (·.isDigit) then .imm (readNumber word) else .label (readLabel word)

/-- The instruction in a line behind the tab at its start. -/
def readInstruction? (code : List Char) : Option Instruction :=
  match code.splitOn '\t' with
  | [word] => do
    return ⟨← Mnemonic.ofText? (String.ofList word), []⟩
  | [word, operands] => do
    return ⟨← Mnemonic.ofText? (String.ofList word), (operands.splitOn ',').map readOperand⟩
  | _ => none

def readLine? : List Char → Option Line
  | [] => some .blank
  | '\t' :: '.' :: words => some (.directive (String.ofList ('.' :: words)))
  | '\t' :: code => (readInstruction? code).map .instruction
  | word => some (.label (readLabel word.dropLast))

/-- The program with the given text; every line of the text has an end. -/
def Machine.Assembly.read? (text : String) : Option Assembly := (textLines text).dropLast.mapM readLine?

private theorem readNumber_repr (n : Nat) : readNumber n.repr.toList = n := by
  rw [readNumber, Nat.toList_repr, Nat.ofDigitChars_toDigits (by omega) (by omega)]

private theorem exists_repr_eq_cons (n : Nat) : ∃ c rest, n.repr.toList = c :: rest ∧ c.isDigit := by
  rw [Nat.toList_repr]
  obtain ⟨c, rest, hd⟩ := List.exists_cons_of_ne_nil (Nat.toDigits_ne_nil (n := n) (b := 10))
  exact ⟨c, rest, hd, Nat.isDigit_of_mem_toDigits (by omega) (by omega) (hd ▸ List.mem_cons_self)⟩

namespace Machine
variable {l : Label} {operand : Operand} {i : Instruction} {line : Line}

private theorem Label.Readable.wordy (h : l.Readable) : Wordy l.text := by
  cases l with
  | generated n => exact generated_wordy n
  | named name => exact Name.wordy_of_isIdentifier h.1

private theorem Operand.Readable.wordy (h : operand.Readable) : ∀ l, operand = .label l → Wordy l.text := by
  rintro l rfl
  exact Label.Readable.wordy h

/-- The text of a label starts like a word and not like a number. -/
theorem Label.Readable.head (h : l.Readable) : ∃ c rest, l.text.toList = c :: rest ∧ (c.isAlpha ∨ c = '_') := by
  cases l with
  | generated n => exact ⟨'L', _, generated_toList n, .inl (by decide)⟩
  | named name =>
    have hid : Name.isIdentifier name := h.1
    unfold Name.isIdentifier at hid
    show ∃ c rest, String.toList name = c :: rest ∧ _
    cases hl : String.toList name with
    | nil =>
      rw [hl] at hid
      cases hid
    | cons c rest =>
      rw [hl] at hid
      simp only [Bool.and_eq_true, Bool.or_eq_true, beq_iff_eq] at hid
      exact ⟨c, rest, rfl, hid.1⟩

private theorem readLabel_text (h : l.Readable) : readLabel l.text.toList = l := by
  cases l with
  | generated n =>
    have hnumbered : isNumbered (Label.generated n).text.toList := by
      rw [Label.generated_toList]
      simp only [isNumbered, Bool.and_eq_true, Bool.not_eq_true', List.isEmpty_eq_false_iff, List.all_eq_true]
      exact ⟨Nat.toDigits_ne_nil, fun c hc => Nat.isDigit_of_mem_toDigits (by omega) (by omega) hc⟩
    rw [readLabel, if_pos hnumbered, Label.generated_toList, List.tail_cons, ← Nat.toList_repr, readNumber_repr]
  | named name =>
    show readLabel (String.toList name) = _
    rw [readLabel, if_neg (by rw [h.2]; decide), String.ofList_toList]

private theorem not_isDigit_of_word {c : Char} (h : c.isAlpha ∨ c = '_') : ¬ c.isDigit := by
  have hdigit : c.isDigit = (decide (48 ≤ c.val) && decide (c.val ≤ 57)) := rfl
  have halpha : c.isAlpha = (decide (65 ≤ c.val ∧ c.val ≤ 90) || decide (97 ≤ c.val) && decide (c.val ≤ 122)) := rfl
  rcases h with h | rfl
  · rw [halpha] at h
    rw [hdigit]
    grind
  · decide

private theorem readOperand_word {c : Char} {rest : List Char} (hdollar : c ≠ '$') (hminus : c ≠ '-') :
    readOperand (c :: rest) =
      if c.isDigit then .imm (readNumber (c :: rest)) else .label (readLabel (c :: rest)) := by
  unfold readOperand
  split
  · next h => exact absurd (List.cons.inj h).1 hdollar
  · next h => exact absurd (List.cons.inj h).1 hminus
  · rfl

/-- The first character tells registers, negative numbers, other numbers and labels apart. -/
theorem readOperand_text (h : operand.Readable) : readOperand operand.text.toList = operand := by
  cases operand with
  | reg r =>
    show readOperand ("$" ++ r.number.repr).toList = _
    rw [String.toList_append]
    show Operand.reg ⟨readNumber r.number.repr.toList⟩ = _
    rw [readNumber_repr]
  | imm value =>
    cases value with
    | ofNat n =>
      show readOperand n.repr.toList = _
      obtain ⟨c, rest, hn, hc⟩ := exists_repr_eq_cons n
      have hdollar : c ≠ '$' := by rintro rfl; cases hc
      have hminus : c ≠ '-' := by rintro rfl; cases hc
      rw [hn, readOperand_word hdollar hminus, if_pos hc, ← hn, readNumber_repr]
      rfl
    | negSucc n =>
      show readOperand ("-" ++ (n + 1).repr).toList = _
      rw [String.toList_append]
      show Operand.imm (-readNumber (n + 1).repr.toList) = _
      rw [readNumber_repr]
      rfl
  | label l =>
    obtain ⟨c, rest, hl, hc⟩ := Label.Readable.head h
    have hdollar : c ≠ '$' := by rintro rfl; revert hc; decide
    have hminus : c ≠ '-' := by rintro rfl; revert hc; decide
    have hdigit : ¬ c.isDigit := not_isDigit_of_word hc
    show readOperand l.text.toList = _
    rw [hl, readOperand_word hdollar hminus, if_neg hdigit, ← hl, readLabel_text h]

private theorem Mnemonic.ofText?_text (m : Mnemonic) : Mnemonic.ofText? m.text = some m := by
  cases m <;> rfl

private theorem splitOn_of_not_mem {c : Char} {word : List Char} (h : c ∉ word) : word.splitOn c = [word] := by
  have hword : ∀ part ∈ [word], c ∉ part := List.forall_mem_singleton.mpr h
  have hsplit := List.splitOn_intercalate c hword (List.cons_ne_nil _ _)
  rwa [List.intercalate_singleton] at hsplit

/-- A tab divides the mnemonic from the operands, and commas divide these. -/
theorem readInstruction?_text (h : ∀ operand ∈ i.operands, operand.Readable) :
    readInstruction? i.text.toList.tail = some i := by
  have hmnemonic := i.mnemonic.wordy.not_mem (c := '\t') (by decide) (by decide)
  by_cases ho : i.operands = []
  · rw [Instruction.toList_of_nil ho, List.tail_cons, readInstruction?, splitOn_of_not_mem hmnemonic]
    simp only [String.ofList_toList, Mnemonic.ofText?_text]
    rw [← ho]
    rfl
  · have hwords : ∀ {c : Char}, c.isAlphanum = false → c ∉ ['_', '$', '-'] →
        ∀ word ∈ i.operands.map fun operand => operand.text.toList, c ∉ word := by
      intro c hc hsigns word hw
      obtain ⟨operand, hm, rfl⟩ := List.mem_map.mp hw
      exact Operand.not_mem (h operand hm).wordy hc hsigns
    have htab : '\t' ∉ [','].intercalate (i.operands.map fun operand => operand.text.toList) := by
      intro hm
      rcases mem_intercalate hm with he | ⟨word, hw, hmem⟩
      · exact absurd he (by decide)
      · exact hwords (by decide) (by decide) word hw hmem
    have hcommas := List.splitOn_intercalate ',' (hwords (by decide) (by decide)) (by simpa using ho)
    have hread : (i.operands.map fun operand => operand.text.toList).map readOperand = i.operands := by
      rw [List.map_map]
      exact (List.map_congr_left fun operand hm => readOperand_text (h operand hm)).trans (List.map_id _)
    rw [Instruction.toList_of_ne_nil ho, List.tail_cons, readInstruction?,
      List.splitOn_append_cons_self_of_not_mem hmnemonic, splitOn_of_not_mem htab]
    simp only [String.ofList_toList, Mnemonic.ofText?_text, hcommas, hread]
    rfl

private theorem readLine?_word {c : Char} {rest : List Char} (h : c ≠ '\t') :
    readLine? (c :: rest) = some (.label (readLabel (c :: rest).dropLast)) := by
  unfold readLine?
  split
  · next he => cases he
  · next he => exact absurd (List.cons.inj he).1 h
  · next he => exact absurd (List.cons.inj he).1 h
  · rfl

private theorem readLine?_code {c : Char} {rest : List Char} (h : c ≠ '.') :
    readLine? ('\t' :: c :: rest) = (readInstruction? (c :: rest)).map .instruction := by
  unfold readLine?
  split
  · next he => cases he
  · next he => exact absurd (List.cons.inj (List.cons.inj he).2).1 h
  · next he => rw [(List.cons.inj he).2]
  · next hcode => exact absurd rfl (hcode _)

/-- The first characters tell the four kinds of lines apart. -/
theorem readLine?_text (h : line.Readable) : readLine? line.text.toList = some line := by
  cases line with
  | directive words =>
    obtain ⟨rest, hwords⟩ := List.head?_eq_some_iff.mp h.1
    show readLine? ("\t" ++ words).toList = _
    rw [String.toList_append, hwords]
    show some (Line.directive (String.ofList ('.' :: rest))) = _
    rw [← hwords, String.ofList_toList]
  | label l =>
    obtain ⟨c, rest, hl, hc⟩ := Label.Readable.head h
    have htab : c ≠ '\t' := by rintro rfl; revert hc; decide
    rw [Line.label_toList, hl, List.cons_append, readLine?_word htab, ← List.cons_append, ← hl,
      List.dropLast_concat, readLabel_text h]
  | instruction i =>
    obtain ⟨c, rest, hi, hc, -⟩ := i.text_line fun l hl => Label.Readable.wordy (h _ hl)
    have hread := readInstruction?_text h
    show readLine? i.text.toList = _
    rw [hi, List.tail_cons] at hread
    rw [hi, readLine?_code hc, hread, Option.map_some]
  | blank => rfl

private theorem Line.Readable.newline_not_mem (h : line.Readable) : '\n' ∉ line.text.toList := by
  cases line with
  | directive words =>
    show '\n' ∉ ("\t" ++ words).toList
    rw [String.toList_append, List.mem_append]
    rintro (hm | hm)
    · exact absurd hm (by decide)
    · exact h.2 hm
  | label l =>
    rw [Line.label_toList, List.mem_append]
    rintro (hm | hm)
    · exact (Label.Readable.wordy h).not_mem (by decide) (by decide) hm
    · exact absurd hm (by decide)
  | instruction i =>
    obtain ⟨_, _, -, -, hnew⟩ := i.text_line fun l hl => Label.Readable.wordy (h _ hl)
    exact hnew
  | blank => decide

namespace Assembly
variable {a b : Assembly}

private theorem read?_text (h : ∀ line ∈ a, line.Readable) : read? a.text = some a := by
  rw [read?, textLines_text fun line hl => (h line hl).newline_not_mem, List.dropLast_concat]
  induction a with
  | nil => rfl
  | cons line a ih =>
    rw [List.forall_mem_cons] at h
    rw [List.map_cons, List.mapM_cons, readLine?_text h.1]
    simp [ih h.2]

/-- Programs with the same text are the same line by line. -/
theorem text_injective (ha : ∀ line ∈ a, line.Readable) (hb : ∀ line ∈ b, line.Readable)
    (h : a.text = b.text) : a = b := by
  have hread := read?_text ha
  rw [h, read?_text hb] at hread
  exact (Option.some.inj hread).symm

/-- A program with lines and operands of every kind. -/
def everyKind : Assembly :=
  [.directive ".export main", .blank, .label (.named "main"),
    .instruction ⟨.add, [.reg .stackPointer, .reg .stackPointer, .imm (-16)]⟩,
    .instruction ⟨.bgeu, [.reg ⟨8⟩, .reg ⟨9⟩, .label .indexError]⟩, .instruction ⟨.j, [.label (.generated 0)]⟩]

theorem everyKind_text_determines :
    (∀ line ∈ everyKind, line.Readable) ∧
      everyKind = [.directive (".export " ++ "main"), .blank, .label (.named "main"),
        .instruction ⟨.add, [.reg ⟨29⟩, .reg ⟨29⟩, .imm (0 - 16)]⟩,
        .instruction ⟨.bgeu, [.reg ⟨8⟩, .reg ⟨9⟩, .label (.named "_indexError")]⟩,
        .instruction ⟨.j, [.label LabelSupply.new.next.1]⟩] :=
  have h : ∀ line ∈ everyKind, line.Readable := by decide
  ⟨h, text_injective h (by decide) (by decide)⟩

end Assembly
end Machine
end SplLang
