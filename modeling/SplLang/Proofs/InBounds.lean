import SplLang.Proofs.Computing
import SplLang.Proofs.Registering
import SplLang.Proofs.Stages

/-! What the check of an index means for the array types that a program can register. It lets an access proceed for
the indices in bounds, and the element behind it lies inside the array. Only arrays of more than `2^31` elements, which
then take no bytes, have other indices that pass. -/
namespace SplLang
open Machine Phase

/-- The types that the declarations of a program register, also if one of them fails. -/
def Program.registered (program : Program) : TypeTable := (program.declare.runFrom .initial).2.context.types

private theorem Program.registered_built (program : Program) : program.registered.Built :=
  (program.declare_registers .initial declared_initial.grounded).grounded.built

/-- What is compiled has the types that were registered. -/
theorem types_eq_registered {program : Program} {c : Compilation} {assembly : Assembly}
    (hc : (compile program .generated).1 = .ok c) (ha : c.assembly = some assembly) :
    c.context.types = program.registered := by
  obtain ⟨count, declared, hd, htypes, -⟩ := compile_declared hc ha
  rw [htypes, Program.registered, runFrom, hd]

/-- The run of the code goes on behind its last line. -/
def Machine.Assembly.Passes {World : Type} (code : Assembly) (address : Label → Word) (s : State World) : Prop :=
  ∃ after, code.run? address s = some (.through after)

/-- What the check of an index does for an array of so many elements of so many bytes, which takes `bytes` in all. The
address of the array and the index are in the two registers that were taken last. -/
structure Machine.Assembly.ChecksIndex (World : Type) (check : Assembly) (scratch : Scratch)
    (length elementSize bytes : UInt32) : Prop where
  /-- The indices in bounds pass, and the negative ones that are below the length as unsigned numbers. -/
  passes : ∀ (address : Label → Word) (s : State World) (i : Int), (s.get scratch.next.next.top).toInt = i →
    (check.Passes address s ↔ 0 ≤ i ∧ i < length.toNat ∨ i < 0 ∧ i + 2^32 < length.toNat)
  /-- Any other index is trapped. -/
  traps : ∀ (address : Label → Word) (s : State World), ¬ check.Passes address s →
    ∃ after, check.run? address s = some (.away Label.indexError after)
  /-- Behind an index that passes, the product is the exact one and the element lies inside the array. -/
  inside : ∀ (address : Label → Word) (s after : State World) (i : Int), (s.get scratch.next.next.top).toInt = i →
    check.run? address s = some (.through after) →
      (after.get scratch.next.next.top).toNat = i * elementSize.toNat ∧
      i * elementSize.toNat + elementSize.toNat ≤ bytes.toNat ∧
      after.get scratch.next.top = s.get scratch.next.top + after.get scratch.next.next.top
  /-- Exactly the indices in bounds pass if and only if there are no more elements than words that are not negative. -/
  exact : ∀ (address : Label → Word) (s : State World),
    (∀ i : Word, check.Passes address (s.set scratch.next.next.top i) ↔ 0 ≤ i.toInt ∧ i.toInt < length.toNat) ↔
      length.toNat ≤ 2^31

namespace TypeTable.Built
variable {types : TypeTable} {type element : TypeId} {length : UInt32}

/-- An array whose elements take any bytes is far shorter than there are words that are not negative. -/
theorem length_lt (h : types.Built) (ha : types.array? type = some (element, length))
    (hpos : 0 < (types.byteSize element).toNat) : length.toNat < 2^30 := by
  have hbytes := h.byteSize_array ha
  have hlt := (types.byteSize type).toNat_lt
  have hwords := h.byteSize_eq element
  have hfour : length.toNat * 4 ≤ length.toNat * (types.byteSize element).toNat := Nat.mul_le_mul_left _ (by omega)
  omega

/-- The bytes of an element in bounds are bytes of the array. -/
theorem element_le (h : types.Built) (ha : types.array? type = some (element, length)) {i : Nat}
    (hi : i < length.toNat) :
    i * (types.byteSize element).toNat + (types.byteSize element).toNat ≤ (types.byteSize type).toNat := by
  rw [h.byteSize_array ha, ← Nat.succ_mul]
  exact Nat.mul_le_mul_right _ hi

end TypeTable.Built

/-- An unsigned comparison, read with signed numbers. -/
theorem toNat_lt_iff_toInt (w : Word) (n : Nat) :
    w.toNat < n ↔ 0 ≤ w.toInt ∧ w.toInt < n ∨ w.toInt < 0 ∧ w.toInt + 2^32 < n := by
  have hw := w.isLt
  rw [BitVec.toInt_eq_toNat_cond]
  split <;> omega

section
variable {World : Type} {address : Label → Word} {scratch : Scratch} {types : TypeTable} {type element : TypeId}
  {length elementSize : UInt32}

/-- Where elements take any bytes, a word below the length is the same number signed and unsigned. -/
theorem TypeTable.Built.toInt_mul (hb : types.Built) (ha : types.array? type = some (element, length)) {w : Word}
    (hw : w.toNat < length.toNat) :
    (w.toNat : Int) * (types.byteSize element).toNat = w.toInt * (types.byteSize element).toNat := by
  rcases Nat.eq_zero_or_pos (types.byteSize element).toNat with hzero | hpos
  · rw [hzero, Nat.cast_zero, mul_zero, mul_zero]
  · have hlt := hb.length_lt ha hpos
    rw [BitVec.toInt_eq_toNat_of_lt (by omega)]

/-- Behind an index that is below the length as an unsigned number, the product and the sum are in the registers. -/
theorem elementCode_through (hlt : scratch.next.next.inUse < Scratch.capacity) {s : State World}
    (hi : (s.get scratch.next.next.top).toNat < length.toNat) :
    ∃ after, (elementCode scratch.next.next length elementSize).run? address s = some (.through after) ∧
      after.get scratch.next.next.top = BitVec.ofNat 32 ((s.get scratch.next.next.top).toNat * elementSize.toNat) ∧
      after.get scratch.next.top = s.get scratch.next.top + after.get scratch.next.next.top := by
  have h : Computes True ((elementCode scratch.next.next length elementSize).run? address s) _ _ :=
    elementCode_computes hlt
  rw [if_pos hi] at h
  obtain ⟨after, hr, ⟨hsum, -⟩, hproduct⟩ := h
  exact ⟨after, hr, hproduct, by rw [hsum, hproduct]⟩

private theorem elementCode_away (hlt : scratch.next.next.inUse < Scratch.capacity) {s : State World}
    (hi : ¬ (s.get scratch.next.next.top).toNat < length.toNat) :
    ∃ after, (elementCode scratch.next.next length elementSize).run? address s =
      some (.away Label.indexError after) := by
  have h : Computes True ((elementCode scratch.next.next length elementSize).run? address s) _ _ :=
    elementCode_computes hlt
  rwa [if_neg hi] at h

private theorem elementCode_passes (hlt : scratch.next.next.inUse < Scratch.capacity) (s : State World) :
    (elementCode scratch.next.next length elementSize).Passes address s ↔
      (s.get scratch.next.next.top).toNat < length.toNat := by
  constructor
  · rintro ⟨after, hr⟩
    by_contra hi
    obtain ⟨_, hr'⟩ := elementCode_away hlt hi
    cases hr'.symm.trans hr
  · intro hi
    obtain ⟨after, hr, -⟩ := elementCode_through hlt hi
    exact ⟨after, hr⟩

/-- An array type that was registered fits the address space, and that is what the check of an index needs. -/
theorem TypeTable.Built.checksIndex (hb : types.Built) (ha : types.array? type = some (element, length))
    (hlt : scratch.next.next.inUse < Scratch.capacity) :
    (elementCode scratch.next.next length (types.byteSize element)).ChecksIndex World scratch length
      (types.byteSize element) (types.byteSize type) where
  passes address s i hi := by
    rw [elementCode_passes hlt, toNat_lt_iff_toInt, hi]
  traps address s hn := elementCode_away hlt ((elementCode_passes hlt s).not.mp hn)
  inside address s after i hi hr := by
    have hin := (elementCode_passes hlt s).mp ⟨after, hr⟩
    obtain ⟨_, hr', hproduct, hsum⟩ := elementCode_through hlt hin
    cases hr'.symm.trans hr
    have hle := hb.element_le ha hin
    have hbytes := (types.byteSize type).toNat_lt
    rw [hsum, hproduct, BitVec.toNat_ofNat, Nat.mod_eq_of_lt (by omega), ← hi, ← hb.toInt_mul ha hin]
    exact ⟨Int.natCast_mul _ _, by exact_mod_cast hle, rfl⟩
  exact address s := by
    have hset : ∀ i : Word, (s.set scratch.next.next.top i).get scratch.next.next.top = i := fun i =>
      State.get_put (s := s) (w := i) Scratch.top_ne_zero
    simp only [elementCode_passes hlt, hset]
    constructor
    · -- Of the words that are negative, the least one is the first as unsigned numbers.
      intro h
      by_contra hn
      have hleast : (BitVec.intMin 32).toNat < length.toNat := by
        rw [BitVec.toNat_intMin]
        omega
      exact absurd ((h _).mp hleast).1 (by decide)
    · intro hle i
      have hleast := i.le_toInt
      rw [toNat_lt_iff_toInt]
      omega

/-- In the code for an element of a registered array type, the check lets the indices in bounds through, and the
element lies inside the array. Other indices pass only if there are more than `2^31` elements, which take no bytes
then. -/
theorem Program.registered_in_bounds {program : Program}
    (ha : program.registered.array? type = some (element, length)) {body : Body}
    (hb : body.context.types = program.registered) {array : Variable}
    (ht : body.context.findings.exprs.at? array.node.id = some type) {node : Node} {index : Expr} {result : Scratch}
    {found : Assembly} (h : ((Variable.element node array index).addressCode body scratch).Gives result found)
    (World : Type) :
    ∃ first rest check, found = first ++ rest ++ check ∧
      check = elementCode scratch.next.next length (program.registered.byteSize element) ∧
      (array.addressCode body scratch).Gives scratch.next first ∧
      (index.valueCode body scratch.next).Gives scratch.next.next rest ∧
      check.ChecksIndex World scratch length (program.registered.byteSize element)
        (program.registered.byteSize type) ∧
      (0 < (program.registered.byteSize element).toNat → length.toNat < 2^30) := by
  have hbuilt := program.registered_built
  obtain ⟨element', length', middle, last, first, rest, hn, hga, hgi, hlt, -, rfl⟩ := Variable.element_shape h
  obtain rfl := array.addressCode_scratch hga
  obtain rfl := index.valueCode_scratch hgi
  rw [Body.noted?, ht, hb, Option.bind_some, ha] at hn
  cases hn
  rw [hb]
  exact ⟨first, rest, _, rfl, rfl, hga, hgi, hbuilt.checksIndex ha hlt, hbuilt.length_lt ha⟩

end

/-- An element at a negative index. -/
def negativeElement : Variable := .element ⟨6, ⟨5, 8⟩⟩ (.named ⟨7, ⟨5, 8⟩⟩ "a") (.literal ⟨8, ⟨5, 10⟩⟩ (-2))

/-- It is an element of an array of so many elements without bytes that the index is below the length as an unsigned
number. -/
def negativeSubscript : Program where
  position := ⟨1, 1⟩
  declarations := [
    .type ⟨⟨1, 1⟩, "none", .array ⟨0, ⟨1, 13⟩⟩ 0 (.named ⟨1, ⟨1, 22⟩⟩ "int")⟩,
    .procedure ⟨⟨2, 1⟩, "take", [⟨⟨2, 11⟩, "x", .named ⟨2, ⟨2, 16⟩⟩ "none", true⟩], [], []⟩,
    .procedure ⟨⟨3, 1⟩, "main", [], [⟨⟨4, 3⟩, "a", .array ⟨3, ⟨4, 10⟩⟩ 4294967295 (.named ⟨4, ⟨4, 34⟩⟩ "none")⟩],
      [.call ⟨5, 3⟩ "take" [.load ⟨5, ⟨5, 8⟩⟩ negativeElement]]⟩]

theorem negativeSubscript_in_bounds : ∃ c result found first rest check,
    (compile negativeSubscript .generated).1 = .ok c ∧
    (negativeElement.addressCode ⟨c.context, 2⟩ .empty).Gives result found ∧ found = first ++ rest ++ check ∧
    Assembly.ChecksIndex Unit check .empty 4294967295 (negativeSubscript.registered.byteSize 2)
      (negativeSubscript.registered.byteSize 3) := by
  obtain ⟨c, assembly, hc, hassembly⟩ :=
    compile_of_isOk (show (compile negativeSubscript .generated).1.isOk by decide +kernel)
  have ha : negativeSubscript.registered.array? 3 = some (2, 4294967295) := by decide +kernel
  have hfound : (compile negativeSubscript .generated).1.toOption.any fun c =>
      decide (c.context.findings.exprs.at? 7 = some 3) &&
        (negativeElement.addressCode ⟨c.context, 2⟩ .empty).result.isOk := by decide +kernel
  rw [hc] at hfound
  obtain ⟨ht, hok⟩ : c.context.findings.exprs.at? 7 = some 3 ∧
      (negativeElement.addressCode ⟨c.context, 2⟩ .empty).result.isOk := by simpa [Except.toOption] using hfound
  obtain ⟨result, hresult⟩ := exists_ok_of_isOk hok
  obtain ⟨first, rest, check, hcode, -, -, -, hchecks, -⟩ :=
    Program.registered_in_bounds ha (types_eq_registered hc hassembly) ht ⟨hresult, rfl⟩ Unit
  exact ⟨c, result, _, first, rest, check, hc, ⟨hresult, rfl⟩, hcode, hchecks⟩

/-- The check lets the negative index through. -/
theorem negativeSubscript_passes : ∃ c before after check,
    (compile negativeSubscript .generated).1 = .ok c ∧ c.assembly = some (before ++ check ++ after) ∧
    c.context.types.array? 3 = some (2, 4294967295) ∧
    check = elementCode Scratch.empty.next.next 4294967295 (c.context.types.byteSize 2) ∧
    ∃ s : State Unit, (s.get Scratch.empty.next.next.top).toInt = -2 ∧
      ∀ address, ¬ (check.Passes address s ↔ 0 ≤ (-2 : Int) ∧ (-2 : Int) < 4294967295) := by
  obtain ⟨c, assembly, hc, ha⟩ :=
    compile_of_isOk (show (compile negativeSubscript .generated).1.isOk by decide +kernel)
  have hcode : (compile negativeSubscript .generated).1.toOption.any fun c =>
      decide (c.context.types.array? 3 = some (2, 4294967295)) && c.assembly.any fun code =>
        decide (elementCode Scratch.empty.next.next 4294967295 (c.context.types.byteSize 2) <:+: code) := by
    decide +kernel
  rw [hc] at hcode
  obtain ⟨harray, before, after, happend⟩ : c.context.types.array? 3 = some (2, 4294967295) ∧
      elementCode Scratch.empty.next.next 4294967295 (c.context.types.byteSize 2) <:+: assembly := by
    simpa [Except.toOption, ha] using hcode
  refine ⟨c, before, after, _, hc, happend ▸ ha, harray, rfl, ⟨0, fun _ => -2, fun _ => 0, 0, ()⟩, by decide, ?_⟩
  intro address h
  exact absurd (h.mp ((elementCode_passes (by decide) _).mpr (by decide))).1 (by decide)

end SplLang
