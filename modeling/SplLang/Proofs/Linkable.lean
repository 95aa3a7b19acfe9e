import SplLang.Proofs.Stages
import SplLang.Proofs.Symbols

/-! The text of an assembly program as a linker reads it, line by line. Procedures and generated
labels share their names with nothing else, unless a procedure is called like a label that is
generated or like the routine for subscripts out of bounds. -/
namespace SplLang
open Machine Machine.Assembly

/-- A letter or an underscore, and then letters, digits and underscores. -/
def Name.isIdentifier (name : Name) : Bool :=
  match name.toList with
  | [] => false
  | c :: rest => (c.isAlpha || c == '_') && rest.all fun d => d.isAlphanum || d == '_'

def textLines (text : String) : List (List Char) := text.toList.splitOn '\n'

/-- The label that a line of text defines: all of the line but the colon at its end. -/
def definedOn? (line : List Char) : Option Name :=
  if line.head? ≠ some '\t' ∧ line.getLast? = some ':' then some (String.ofList line.dropLast) else none

/-- What stands before the name in an import. -/
def importWords : List Char := "\t.import ".toList

/-- The name that a line of text imports. -/
def importedOn? (line : List Char) : Option Name :=
  if importWords.isPrefixOf line then some (String.ofList (line.drop importWords.length)) else none

/-- The labels that the lines of a text define, in order. -/
def definitions (text : String) : List Name := (textLines text).filterMap definedOn?

/-- The names that the lines of a text import, in order. -/
def imports (text : String) : List Name := (textLines text).filterMap importedOn?

/-- No label is defined on two lines, and none that is defined is imported. -/
structure Linkable (text : String) : Prop where
  once : (definitions text).Nodup
  apart : ∀ name ∈ definitions text, name ∉ imports text

/-- The name has letters, digits and underscores only. -/
def Wordy (name : Name) : Prop := ∀ c ∈ name.toList, c.isAlphanum ∨ c = '_'

theorem Name.wordy_of_isIdentifier {name : Name} (h : name.isIdentifier) : Wordy name := by
  unfold isIdentifier at h
  intro c hc
  cases hl : name.toList with
  | nil =>
    rw [hl] at hc
    cases hc
  | cons first rest =>
    rw [hl] at h hc
    simp only [Bool.and_eq_true, Bool.or_eq_true, beq_iff_eq, List.all_eq_true] at h
    rcases List.mem_cons.mp hc with rfl | hm
    · refine h.1.imp_left fun ha => ?_
      rw [Char.isAlphanum, ha, Bool.true_or]
    · exact h.2 c hm

private theorem isAlphanum_of_isDigit {c : Char} (h : c.isDigit) : c.isAlphanum := by
  rw [Char.isAlphanum, h, Bool.or_true]

theorem Machine.Label.generated_toList (n : Nat) :
    (Label.generated n).text.toList = 'L' :: Nat.toDigits 10 n := by
  show ("L" ++ n.repr).toList = _
  rw [String.toList_append, Nat.toList_repr]
  rfl

theorem Machine.Label.generated_wordy (n : Nat) : Wordy (Label.generated n).text := by
  intro c hc
  rw [generated_toList] at hc
  rcases List.mem_cons.mp hc with rfl | hm
  · exact .inl (by decide)
  · exact .inl (isAlphanum_of_isDigit (Nat.isDigit_of_mem_toDigits (by omega) (by omega) hm))

private theorem Machine.Label.generated_text_inj {m n : Nat}
    (h : (Label.generated m).text = (Label.generated n).text) : m = n := by
  have hdigits : Nat.toDigits 10 m = Nat.toDigits 10 n := by
    have hlist := congrArg String.toList h
    rw [generated_toList, generated_toList] at hlist
    exact (List.cons.inj hlist).2
  rw [← @Nat.ofDigitChars_toDigits 10 m (by omega) (by omega), hdigits,
    Nat.ofDigitChars_toDigits (by omega) (by omega)]

theorem Wordy.not_mem {name : Name} (h : Wordy name) {c : Char} (hc : c.isAlphanum = false)
    (hu : c ≠ '_') : c ∉ name.toList := by
  intro hm
  rcases h c hm with ha | he
  · rw [hc] at ha
    cases ha
  · exact hu he

private theorem library_wordy : ∀ p ∈ library, Wordy p.name := by
  have hall : ∀ p ∈ library, p.name.toList.all fun c => c.isAlphanum || c == '_' := by decide
  intro p hp c hc
  have hm := List.all_eq_true.mp (hall p hp) c hc
  simpa using hm

/-- All names in the program are plain words if those of its procedures are identifiers. -/
theorem Program.Symbol.wordy {program : Program} {l : Label}
    (hid : ∀ p ∈ program.procedures, p.name.isIdentifier) (h : program.Symbol l) : Wordy l.text := by
  rcases h with ⟨p, hp, rfl⟩ | ⟨p, hp, rfl⟩ | rfl | ⟨n, _, rfl⟩
  · exact library_wordy p hp
  · exact Name.wordy_of_isIdentifier (hid p hp)
  · intro c hc
    have hall : Label.indexError.text.toList.all fun c => c.isAlphanum || c == '_' := by decide
    have hm := List.all_eq_true.mp hall c hc
    simpa using hm
  · exact Label.generated_wordy n

section
variable {l : Label} {name : Name}

theorem Machine.Line.label_toList : (Line.label l).text.toList = l.text.toList ++ [':'] := by
  show (l.text ++ ":").toList = _
  rw [String.toList_append]
  rfl

theorem Machine.Line.export_toList :
    (Line.directive (".export " ++ name)).text.toList = "\t.export ".toList ++ name.toList := by
  show ("\t" ++ (".export " ++ name)).toList = _
  rw [String.toList_append, String.toList_append, ← List.append_assoc]
  rfl

private theorem Machine.Line.label_head (h : Wordy l.text) : (Line.label l).text.toList.head? ≠ some '\t' := by
  intro he
  rw [label_toList] at he
  rcases List.mem_append.mp (List.mem_of_mem_head? he) with hm | hm
  · exact h.not_mem (by decide) (by decide) hm
  · cases List.mem_singleton.mp hm

private theorem definedOn?_label (h : Wordy l.text) : definedOn? (Line.label l).text.toList = some l.text := by
  have hhead := Line.label_head h
  rw [Line.label_toList] at hhead ⊢
  rw [definedOn?, if_pos ⟨hhead, List.getLast?_concat⟩, List.dropLast_concat, String.ofList_toList]

private theorem definedOn?_tab {line : List Char} (h : line.head? = some '\t') : definedOn? line = none := by
  rw [definedOn?, if_neg fun hc => hc.1 h]

private theorem importedOn?_of_second {c : Char} {rest : List Char} (hc : c ≠ '.') :
    importedOn? ('\t' :: c :: rest) = none := by
  rw [importedOn?, if_neg]
  intro hp
  obtain ⟨tail, ht⟩ := List.isPrefixOf_iff_prefix.mp hp
  have hwords : importWords = '\t' :: '.' :: "import ".toList := rfl
  rw [hwords] at ht
  exact hc (List.cons.inj (List.cons.inj ht).2).1.symm

private theorem importedOn?_of_head {line : List Char} (h : line.head? ≠ some '\t') :
    importedOn? line = none := by
  rw [importedOn?, if_neg]
  intro hp
  obtain ⟨tail, rfl⟩ := List.isPrefixOf_iff_prefix.mp hp
  exact h rfl

private theorem importedOn?_export (name : Name) :
    importedOn? (Line.directive (".export " ++ name)).text.toList = none := by
  rw [Line.export_toList, importedOn?, if_neg]
  intro hp
  obtain ⟨tail, ht⟩ := List.isPrefixOf_iff_prefix.mp hp
  have hwords : importWords = '\t' :: '.' :: 'i' :: "mport ".toList := rfl
  have hexport : "\t.export ".toList = '\t' :: '.' :: 'e' :: "xport ".toList := rfl
  rw [hwords, hexport] at ht
  have hthird := (List.cons.inj (List.cons.inj (List.cons.inj ht).2).2).1
  exact absurd hthird (by decide)

theorem mem_intercalate {c sep : Char} {words : List (List Char)} (h : c ∈ [sep].intercalate words) :
    c = sep ∨ ∃ w ∈ words, c ∈ w := by
  induction words with
  | nil => cases h
  | cons w words ih =>
    cases words with
    | nil => exact .inr ⟨w, List.mem_singleton_self w, by rwa [List.intercalate_singleton] at h⟩
    | cons w' words =>
      rw [List.intercalate_cons_cons, List.mem_append, List.mem_append] at h
      rcases h with (hw | hsep) | hrest
      · exact .inr ⟨w, List.mem_cons_self, hw⟩
      · exact .inl (List.mem_singleton.mp hsep)
      · rcases ih hrest with he | ⟨v, hv, hc⟩
        · exact .inl he
        · exact .inr ⟨v, List.mem_cons_of_mem _ hv, hc⟩

theorem Machine.Mnemonic.wordy (m : Mnemonic) : Wordy m.text := by
  have hall : m.text.toList.all fun c => c.isAlphanum || c == '_' := by cases m <;> decide
  intro c hc
  have hm := List.all_eq_true.mp hall c hc
  simpa using hm

private theorem Machine.Mnemonic.text_head (m : Mnemonic) : ∃ c rest, m.text.toList = c :: rest ∧ c ≠ '.' := by
  cases m <;> exact ⟨_, _, rfl, by decide⟩

private theorem not_mem_repr {c : Char} (hc : c.isDigit = false) (n : Nat) : c ∉ n.repr.toList := by
  rw [Nat.toList_repr]
  intro hm
  rw [Nat.isDigit_of_mem_toDigits (by omega) (by omega) hm] at hc
  cases hc

/-- An operand has nothing in it but words, the sign of a register and that of a number. -/
theorem Machine.Operand.not_mem {operand : Operand} (h : ∀ l, operand = .label l → Wordy l.text) {c : Char}
    (hc : c.isAlphanum = false) (hsigns : c ∉ ['_', '$', '-']) : c ∉ operand.text.toList := by
  have hdigit : c.isDigit = false := (Bool.or_eq_false_iff.mp hc).2
  simp only [List.mem_cons, List.not_mem_nil, or_false, not_or] at hsigns
  obtain ⟨hline, hdollar, hminus⟩ := hsigns
  cases operand with
  | reg r =>
    show c ∉ ("$" ++ r.number.repr).toList
    rw [String.toList_append, List.mem_append]
    rintro (hm | hm)
    · exact hdollar (List.mem_singleton.mp hm)
    · exact not_mem_repr hdigit _ hm
  | imm value =>
    cases value with
    | ofNat n => exact not_mem_repr hdigit n
    | negSucc n =>
      show c ∉ ("-" ++ (n + 1).repr).toList
      rw [String.toList_append, List.mem_append]
      rintro (hm | hm)
      · exact hminus (List.mem_singleton.mp hm)
      · exact not_mem_repr hdigit _ hm
  | label l => exact (h l rfl).not_mem hc hline

theorem Machine.Instruction.toList_of_nil {i : Instruction} (h : i.operands = []) :
    i.text.toList = '\t' :: i.mnemonic.text.toList := by
  simp [Instruction.text, h]

theorem Machine.Instruction.toList_of_ne_nil {i : Instruction} (h : i.operands ≠ []) :
    i.text.toList = '\t' :: (i.mnemonic.text.toList ++
      '\t' :: [','].intercalate (i.operands.map fun operand => operand.text.toList)) := by
  obtain ⟨operand, operands, ho⟩ := List.exists_cons_of_ne_nil h
  simp only [Instruction.text, ho, String.toList_append, String.toList_intercalate, List.map_map]
  simp [Function.comp_def]

/-- An instruction starts with a tab and its mnemonic, and stays on its line. -/
theorem Machine.Instruction.text_line {i : Instruction}
    (h : ∀ l, .label l ∈ i.operands → Wordy l.text) :
    ∃ c rest, i.text.toList = '\t' :: c :: rest ∧ c ≠ '.' ∧ '\n' ∉ i.text.toList := by
  obtain ⟨c, word, hword, hc⟩ := i.mnemonic.text_head
  have hmnemonic := i.mnemonic.wordy.not_mem (c := '\n') (by decide) (by decide)
  by_cases ho : i.operands = []
  · have htext := toList_of_nil ho
    refine ⟨c, word, by rw [htext, hword], hc, ?_⟩
    rw [htext, List.mem_cons]
    rintro (he | hm)
    · exact absurd he (by decide)
    · exact hmnemonic hm
  · have htext := toList_of_ne_nil ho
    refine ⟨c, _, by rw [htext, hword]; rfl, hc, ?_⟩
    rw [htext, List.mem_cons, List.mem_append, List.mem_cons]
    rintro (he | hm | he | hm)
    · exact absurd he (by decide)
    · exact hmnemonic hm
    · exact absurd he (by decide)
    · rcases mem_intercalate hm with he | ⟨w, hw, hmem⟩
      · exact absurd he (by decide)
      · obtain ⟨operand, hoperand, rfl⟩ := List.mem_map.mp hw
        exact Operand.not_mem (fun l hl => h l (hl ▸ hoperand)) (by decide) (by decide) hmem

theorem textLines_text {assembly : Assembly} (h : ∀ line ∈ assembly, '\n' ∉ line.text.toList) :
    textLines assembly.text = assembly.map (·.text.toList) ++ [[]] := by
  have htext : assembly.text.toList = assembly.flatMap fun line => line.text.toList ++ ['\n'] := by
    unfold Assembly.text
    rw [String.toList_join, List.flatMap_map]
    apply List.flatMap_congr
    intro line _
    rw [String.toList_append]
    rfl
  rw [textLines, htext]
  clear htext
  induction assembly with
  | nil => rfl
  | cons line assembly ih =>
    rw [List.forall_mem_cons] at h
    rw [List.flatMap_cons, List.append_assoc, List.singleton_append,
      List.splitOn_append_cons_self_of_not_mem h.1, ih h.2]
    rfl

/-- What a linker reads off a line: the label that the line defines, and no import. -/
structure Machine.Line.Reads (line : Line) : Prop where
  newline : '\n' ∉ line.text.toList
  defined : definedOn? line.text.toList = line.label?.map (·.text)
  imported : importedOn? line.text.toList = none

private theorem Program.CodeLine.reads {program : Program} {line : Line}
    (hid : ∀ p ∈ program.procedures, p.name.isIdentifier) (h : program.CodeLine line) : line.Reads := by
  rcases h with ⟨p, hp, rfl⟩ | h
  · have hword := Name.wordy_of_isIdentifier (hid p hp)
    refine ⟨?_, ?_, importedOn?_export p.name⟩
    · rw [Line.export_toList, List.mem_append]
      rintro (hm | hm)
      · exact absurd hm (by decide)
      · exact hword.not_mem (by decide) (by decide) hm
    · rw [Line.export_toList]
      exact definedOn?_tab rfl
  cases line with
  | directive words => cases h
  | label l =>
    have hword := Program.Symbol.wordy hid h
    refine ⟨?_, definedOn?_label hword, importedOn?_of_head (Line.label_head hword)⟩
    rw [Line.label_toList, List.mem_append]
    rintro (hm | hm)
    · exact hword.not_mem (by decide) (by decide) hm
    · exact absurd hm (by decide)
  | instruction i =>
    obtain ⟨c, rest, htext, hc, hnew⟩ := i.text_line fun l hl => Program.Symbol.wordy hid (h l hl)
    refine ⟨hnew, ?_, ?_⟩
    · show definedOn? i.text.toList = none
      rw [htext]
      exact definedOn?_tab rfl
    · show importedOn? i.text.toList = none
      rw [htext]
      exact importedOn?_of_second hc
  | blank => exact ⟨by decide, by decide, by decide⟩

end

/-- What the header imports: the library and the routine for subscripts out of bounds. -/
def importedNames : List Name := library.map (·.name) ++ [Label.indexError.text]

private theorem header_reads : ∀ line ∈ header, '\n' ∉ line.text.toList ∧ definedOn? line.text.toList = none := by
  decide +kernel

private theorem header_imports : header.filterMap (fun line => importedOn? line.text.toList) = importedNames := by
  decide +kernel

section
variable {program : Program} {rest : Assembly}

private theorem textLines_program (hreads : ∀ line ∈ rest, line.Reads) :
    textLines (Assembly.text (header ++ rest)) = (header ++ rest).map (·.text.toList) ++ [[]] := by
  apply textLines_text
  rw [List.forall_mem_append]
  exact ⟨fun line hl => (header_reads line hl).1, fun line hl => (hreads line hl).newline⟩

/-- The text defines the labels of the code. -/
theorem definitions_program (hreads : ∀ line ∈ rest, line.Reads) :
    definitions (Assembly.text (header ++ rest)) = (labels rest).map (·.text) := by
  have hheader : header.filterMap (fun line => definedOn? line.text.toList) = [] :=
    List.filterMap_eq_nil_iff.mpr fun line hl => (header_reads line hl).2
  have hrest : rest.filterMap (fun line => definedOn? line.text.toList) = (labels rest).map (·.text) := by
    rw [labels, List.map_filterMap]
    exact List.filterMap_congr fun line hl => (hreads line hl).defined
  rw [definitions, textLines_program hreads, List.filterMap_append, List.filterMap_map,
    List.filterMap_append]
  exact (congrArg₂ (· ++ · ++ []) hheader hrest).trans (List.append_nil _)

/-- The text imports what its header does. -/
theorem imports_program (hreads : ∀ line ∈ rest, line.Reads) :
    imports (Assembly.text (header ++ rest)) = importedNames := by
  have hrest : rest.filterMap (fun line => importedOn? line.text.toList) = [] :=
    List.filterMap_eq_nil_iff.mpr fun line hl => (hreads line hl).imported
  rw [imports, textLines_program hreads, List.filterMap_append, List.filterMap_map,
    List.filterMap_append]
  exact (congrArg₂ (· ++ · ++ []) header_imports hrest).trans (by simp)

private theorem linkable_iff (hreads : ∀ line ∈ rest, line.Reads) :
    Linkable (Assembly.text (header ++ rest)) ↔
      ((labels rest).map (·.text)).Nodup ∧ ∀ l ∈ labels rest, l.text ∉ importedNames := by
  constructor
  · rintro ⟨honce, hapart⟩
    rw [definitions_program hreads] at honce hapart
    rw [imports_program hreads] at hapart
    exact ⟨honce, fun l hl => hapart _ (List.mem_map_of_mem hl)⟩
  · rintro ⟨honce, hapart⟩
    rw [← definitions_program hreads] at honce
    refine ⟨honce, ?_⟩
    rw [definitions_program hreads, imports_program hreads]
    exact List.forall_mem_map.mpr hapart

/-- No generated label is called like something that is imported. -/
theorem generated_not_imported (n : Nat) : (Label.generated n).text ∉ importedNames := by
  have hheads : ∀ name ∈ importedNames, name.toList.head? ≠ some 'L' := by decide +kernel
  intro hm
  apply hheads _ hm
  rw [Label.generated_toList]
  rfl

/-- The procedure is called neither like the routine for subscripts out of bounds nor like a label
that is generated for the program. -/
def Procedure.KeepsApart (program : Program) (procedure : Procedure) : Prop :=
  procedure.name ≠ Label.indexError.text ∧
    ∀ n < program.labelCount, procedure.name ≠ (Label.generated n).text

/-- Labels that are defined once each keep their texts apart if the names of procedures do. -/
theorem symbols_apart_iff (hnames : (program.procedures.map (·.name)).Nodup)
    (hlibrary : ∀ p ∈ program.procedures, ∀ lib ∈ library, lib.name ≠ p.name)
    (hperm : (labels rest).Perm (program.procedures.map (·.label) ++ drawn 0 program.labelCount)) :
    (((labels rest).map (·.text)).Nodup ∧ ∀ l ∈ labels rest, l.text ∉ importedNames) ↔
      ∀ p ∈ program.procedures, p.KeepsApart program := by
  have htexts : ((labels rest).map (·.text)).Perm
      (program.procedures.map (·.name) ++ (drawn 0 program.labelCount).map (·.text)) := by
    have hmap := hperm.map (·.text)
    rw [List.map_append, List.map_map] at hmap
    exact hmap
  rw [htexts.nodup_iff, List.nodup_append]
  constructor
  · rintro ⟨⟨_, _, hdisjoint⟩, hapart⟩ p hp
    constructor
    · intro he
      apply hapart p.label (hperm.mem_iff.mpr (List.mem_append_left _ (List.mem_map_of_mem hp)))
      rw [Procedure.label, Label.text, he]
      exact List.mem_append_right _ (List.mem_singleton_self _)
    · intro n hn he
      apply hdisjoint p.name (List.mem_map_of_mem hp) (Label.generated n).text _ he
      exact List.mem_map_of_mem (mem_drawn.mpr ⟨Nat.zero_le n, hn⟩)
  · intro hkeeps
    refine ⟨⟨hnames, ?_, ?_⟩, ?_⟩
    · apply drawn_nodup.map_on
      intro l hl l' hl' he
      obtain ⟨m, rfl, _⟩ := exists_of_mem_drawn hl
      obtain ⟨n, rfl, _⟩ := exists_of_mem_drawn hl'
      rw [Label.generated_text_inj he]
    · intro name hname text htext he
      obtain ⟨p, hp, rfl⟩ := List.mem_map.mp hname
      obtain ⟨l, hl, rfl⟩ := List.mem_map.mp htext
      obtain ⟨n, rfl, hn⟩ := exists_of_mem_drawn hl
      exact (hkeeps p hp).2 n hn he
    · intro l hl
      rcases List.mem_append.mp (hperm.mem_iff.mp hl) with hm | hm
      · obtain ⟨p, hp, rfl⟩ := List.mem_map.mp hm
        intro himport
        rcases List.mem_append.mp himport with hi | hi
        · obtain ⟨lib, hlib, he⟩ := List.mem_map.mp hi
          exact hlibrary p hp lib hlib he
        · exact (hkeeps p hp).1 (List.mem_singleton.mp hi)
      · obtain ⟨n, rfl, _⟩ := exists_of_mem_drawn hm
        exact generated_not_imported n

end

/-- The labels that instructions name. -/
def Machine.Assembly.targets (assembly : Assembly) : List Label :=
  assembly.instructions.flatMap fun i => i.operands.filterMap fun
    | .label l => some l
    | _ => none

private theorem Machine.Assembly.mem_targets {assembly : Assembly} {l : Label} :
    l ∈ targets assembly ↔ ∃ i, .instruction i ∈ assembly ∧ .label l ∈ i.operands := by
  rw [targets, List.mem_flatMap]
  constructor
  · rintro ⟨i, hi, hl⟩
    obtain ⟨line, hline, hinstruction⟩ := List.mem_filterMap.mp hi
    obtain ⟨operand, ho, hlabel⟩ := List.mem_filterMap.mp hl
    cases line <;> cases hinstruction
    cases operand <;> cases hlabel
    exact ⟨i, hline, ho⟩
  · rintro ⟨i, hi, ho⟩
    exact ⟨i, List.mem_filterMap.mpr ⟨_, hi, rfl⟩, List.mem_filterMap.mpr ⟨_, ho, rfl⟩⟩

section
variable {context : Context} {sigs : List Signature} {area : Signature → OutgoingArea}
  {program : Program} {supply : LabelSupply} {assembly : Assembly}

/-- A text links exactly if every procedure keeps apart from the names that the compiler makes up. -/
theorem Prepared.linkable_iff (h : Prepared context sigs area)
    (hsigs : sigs.map (·.procedure) = program.procedures)
    (hg : (program.code context).Gives supply assembly)
    (hid : ∀ p ∈ program.procedures, p.name.isIdentifier) :
    Linkable assembly.text ↔ ∀ p ∈ program.procedures, p.KeepsApart program := by
  obtain ⟨rest, rfl, hcode⟩ := h.code_names hsigs hg
  have hperm := Program.code_labels hg
  rw [labels_append, labels_header, List.nil_append] at hperm
  rw [SplLang.linkable_iff fun line hl => (hcode line hl).reads hid, symbols_apart_iff (h.names hsigs) _ hperm]
  intro p hp lib hlib
  rw [← hsigs] at hp
  obtain ⟨sig, hs, rfl⟩ := List.mem_map.mp hp
  exact h.seen.ne_library hs hlib

/-- Every label that an instruction names is defined or imported. -/
theorem Prepared.targets_known (h : Prepared context sigs area)
    (hsigs : sigs.map (·.procedure) = program.procedures)
    (hg : (program.code context).Gives supply assembly)
    (hid : ∀ p ∈ program.procedures, p.name.isIdentifier) {l : Label} (hl : l ∈ targets assembly) :
    l.text ∈ definitions assembly.text ∨ l.text ∈ imports assembly.text := by
  obtain ⟨rest, rfl, hcode⟩ := h.code_names hsigs hg
  have hreads : ∀ line ∈ rest, line.Reads := fun line hl => (hcode line hl).reads hid
  have hperm := Program.code_labels hg
  rw [labels_append, labels_header, List.nil_append] at hperm
  rw [definitions_program hreads, imports_program hreads]
  obtain ⟨i, hi, ho⟩ := mem_targets.mp hl
  have hsymbol : program.Symbol l := by
    rcases List.mem_append.mp hi with hm | hm
    · exact absurd hm (by simp [header])
    · rcases hcode _ hm with ⟨p, _, he⟩ | hnames
      · cases he
      · exact hnames l ho
  rcases hsymbol with ⟨lib, hlib, rfl⟩ | ⟨p, hp, rfl⟩ | rfl | ⟨n, hn, rfl⟩
  · exact .inr (List.mem_append_left _ (List.mem_map_of_mem hlib))
  · refine .inl (List.mem_map_of_mem (hperm.mem_iff.mpr ?_))
    exact List.mem_append_left _ (List.mem_map_of_mem hp)
  · exact .inr (List.mem_append_right _ (List.mem_singleton_self _))
  · refine .inl (List.mem_map_of_mem (hperm.mem_iff.mpr ?_))
    exact List.mem_append_right _ (mem_drawn.mpr ⟨Nat.zero_le n, hn⟩)

end

/-- The text of a compiled program defines or imports every label that its instructions name. It
defines each on one line only and imports none of those, exactly if no procedure is called like
the routine for subscripts out of bounds or like one of the labels generated for its program. -/
theorem compile_linkable_iff {program : Program} {c : Compilation} {assembly : Assembly}
    (h : (compile program .generated).1 = .ok c) (ha : c.assembly = some assembly)
    (hid : ∀ p ∈ program.procedures, p.name.isIdentifier) :
    (∀ l ∈ targets assembly, l.text ∈ definitions assembly.text ∨ l.text ∈ imports assembly.text) ∧
    (Linkable assembly.text ↔ ∀ p ∈ program.procedures, p.name ≠ "_indexError" ∧
      ∀ n < program.labelCount, p.name ≠ s!"L{n}") := by
  obtain ⟨sigs, area, _, supply, hsigs, hprepared, _, hcode⟩ := compile_prepared h ha
  exact ⟨fun l hl => hprepared.targets_known hsigs hcode hid hl, hprepared.linkable_iff hsigs hcode hid⟩

/-- A program whose procedures are called `L0` and `main`; `main` skips an empty statement. -/
def labelNamed : Program where
  position := ⟨1, 1⟩
  declarations := [
    .procedure ⟨⟨1, 1⟩, "L0", [], [], []⟩,
    .procedure ⟨⟨2, 1⟩, "main", [], [],
      [.ifThen ⟨3, 3⟩ (.binary ⟨2, ⟨3, 7⟩⟩ (.comparison .lt) (.literal ⟨0, ⟨3, 7⟩⟩ 1)
        (.literal ⟨1, ⟨3, 9⟩⟩ 2)) (.empty ⟨3, 12⟩)]⟩]

theorem labelNamed_linkable_iff :
    ∃ c assembly, (compile labelNamed .generated).1 = .ok c ∧ c.assembly = some assembly ∧
      (∀ p ∈ labelNamed.procedures, p.name.isIdentifier) ∧
      (∀ l ∈ targets assembly, l.text ∈ definitions assembly.text ∨ l.text ∈ imports assembly.text) ∧
      (Linkable assembly.text ↔ ∀ p ∈ labelNamed.procedures, p.name ≠ "_indexError" ∧
        ∀ n < labelNamed.labelCount, p.name ≠ s!"L{n}") :=
  ⟨_, _, rfl, rfl, by decide, compile_linkable_iff rfl rfl (by decide)⟩

/-- One line of its text defines `L0` for the procedure and another one as a generated label. -/
theorem labelNamed_not_linkable :
    ∃ c assembly, (compile labelNamed .generated).1 = .ok c ∧ c.assembly = some assembly ∧
      ¬ Linkable assembly.text := by
  refine ⟨_, _, rfl, rfl, ?_⟩
  obtain ⟨sigs, area, _, supply, hsigs, hprepared, _, hcode⟩ := @compile_prepared labelNamed _ _ rfl rfl
  rw [hprepared.linkable_iff hsigs hcode (by decide)]
  intro h
  have hkeeps := h _ List.mem_cons_self
  exact hkeeps.2 0 (by decide) rfl

end SplLang
