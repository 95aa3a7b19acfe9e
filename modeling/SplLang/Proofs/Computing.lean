import SplLang.Proofs.Fragment
import SplLang.Proofs.Ready

/-! Code for variables and expressions computes what they mean, wherever the code stands and wherever the storage
lies. It writes no memory and no register that was in use before. -/
namespace SplLang
open Machine

namespace Machine.Scratch
variable {scratch : Scratch}

theorem top_ne_zero : scratch.next.top.number ≠ 0 := by
  show 8 + scratch.inUse ≠ 0
  omega

private theorem top_ne_second : scratch.next.next.top.number ≠ scratch.next.next.second.number := Nat.succ_ne_self _

private theorem top_lt (h : scratch.inUse < capacity) : scratch.next.top.number < 24 := Nat.add_lt_add_left h 8

end Machine.Scratch

private theorem mul_ofNat (w : Word) (m : Nat) : w * BitVec.ofNat 32 m = BitVec.ofNat 32 (w.toNat * m) := by
  rw [BitVec.ofNat_mul, BitVec.ofNat_toNat, BitVec.setWidth_eq]

/-- Every variable that a name means has its cells. -/
def Body.Covers (body : Body) (cells : Keyed Name Cell) : Prop :=
  ∀ name type, body.around.varType? name = some type → cells.at? name ≠ none

/-- What code finds where it reads variables: `lies cell base type` says that the storage of a value of the type
from the cell on lies from the address on. Words of the types that are `readable` are those of the store. -/
structure Reads {World : Type} (body : Body) (cells : Keyed Name Cell) (store : Store)
    (lies : Cell → Word → TypeId → Prop) (readable : TypeId → Prop) (s : State World) : Prop where
  binds : ∀ name cell type, cells.at? name = some cell → body.around.varType? name = some type →
    ∃ offset byReference base, body.placed? name = some (offset, byReference) ∧ lies cell base type ∧
      if byReference then
        Aligned (s.get .framePointer + offset.toBitVec) ∧ s.memory (s.get .framePointer + offset.toBitVec) = base
      else s.get .framePointer + offset.toBitVec = base
  element : ∀ ⦃cell base type element length i⦄, lies cell base type →
    body.context.types.array? type = some (element, length) → i < length.toNat →
      lies (cell.shift (i * body.context.types.words element))
        (base + BitVec.ofNat 32 (4 * (i * body.context.types.words element))) element
  word : ∀ ⦃cell base type⦄, lies cell base type → readable type → Aligned base ∧ s.memory base = store cell
  int : readable TypeId.int

section
variable {World : Type} {address : Label → Word} {body : Body} {cells : Keyed Name Cell} {store : Store}
  {lies : Cell → Word → TypeId → Prop} {readable : TypeId → Prop} {scratch result : Scratch}
  {found rest : Assembly} {s after last : State World}

/-- A word is left in the next scratch register, and nothing else has changed. -/
structure Leaves (scratch : Scratch) (s : State World) (word : Word) (after : State World) : Prop where
  value : after.get scratch.next.top = word
  scratched : s.Scratched (Scratch.first + scratch.inUse) after

/-- The address of a variable is left in the next scratch register. -/
structure LeavesAddress (lies : Cell → Word → TypeId → Prop) (scratch : Scratch) (s : State World) (type : TypeId)
    (located : Cell × TypeId) (after : State World) : Prop where
  typed : located.2 = type
  lies : lies located.1 (after.get scratch.next.top) type
  scratched : s.Scratched (Scratch.first + scratch.inUse) after

private theorem Reads.scratched (h : Reads body cells store lies readable s) {low : Nat} (hs : s.Scratched low after) :
    Reads body cells store lies readable after := by
  have hfp : after.get .framePointer = s.get .framePointer := hs.get (.inr (Nat.le_succ 24))
  refine ⟨?_, h.element, ?_, h.int⟩
  · rw [hfp, hs.memory]
    exact h.binds
  · rw [hs.memory]
    exact h.word

private theorem leaves_put (hlt : scratch.inUse < Scratch.capacity) {w : Word} :
    Leaves scratch s w (s.put scratch.next.top w) :=
  ⟨State.get_put Scratch.top_ne_zero, State.scratched_put (Nat.le_refl _) (Scratch.top_lt hlt)⟩

/-- A register that was in use keeps its word. -/
theorem Machine.State.Scratched.kept (h : s.Scratched (Scratch.first + scratch.next.inUse) after) :
    after.get scratch.next.top = s.get scratch.next.top := h.get (.inl (Nat.lt_succ_self _))

theorem Machine.State.Scratched.below (h : s.Scratched (Scratch.first + scratch.next.inUse) after) :
    s.Scratched (Scratch.first + scratch.inUse) after := h.mono (Nat.le_succ _)

private theorem named_computes {node : Node} {name : Name} {type : TypeId} (hs : Reads body cells store lies readable s)
    (ht : body.around.varType? name = some type)
    (hg : ((Variable.named node name).addressCode body scratch).Gives result found) :
    Computes (body.Covers cells) (found.run? address s) ((Variable.named node name).locate ⟨body.around, cells⟩ store)
      (LeavesAddress lies scratch s type) := by
  rw [Variable.locate]
  cases hc : cells.at? name with
  | none => exact fun hcovers => absurd hc (hcovers name type ht)
  | some cell =>
    obtain ⟨offset, byReference, base, hp, hlies, hb⟩ := hs.binds name cell type hc ht
    obtain ⟨offset', byReference', hp', hlt, -, rfl⟩ := Variable.named_shape hg
    rw [hp] at hp'
    cases hp'
    rw [run?_addConstant, show BitVec.ofInt 32 offset.toInt = offset.toBitVec from BitVec.ofInt_toInt, ht]
    have hslot := leaves_put (s := s) (w := s.get .framePointer + offset.toBitVec) hlt
    generalize s.put scratch.next.top (s.get .framePointer + offset.toBitVec) = slot at hslot ⊢
    obtain ⟨hvalue, hscratched⟩ := hslot
    cases byReference with
    | false => exact .ok rfl ⟨rfl, by rwa [hvalue, hb], hscratched⟩
    | true =>
      obtain ⟨ha, hm⟩ := hb
      rw [followCode, if_pos rfl, run?_load (hvalue ▸ ha), hvalue, hscratched.memory, hm]
      obtain ⟨hbase, hscratched'⟩ := leaves_put (s := slot) (w := base) hlt
      exact .ok rfl ⟨rfl, by rwa [hbase], hscratched.trans hscratched' (Nat.le_refl _)⟩

/-- The check of an index, and the address of the element behind it. The address of the array and the index are
in the two registers that were taken last, and the product stays in the second of them. -/
theorem elementCode_computes {complete : Prop} {length elementSize : UInt32}
    (hlt : scratch.next.next.inUse < Scratch.capacity) :
    Computes complete ((elementCode scratch.next.next length elementSize).run? address s)
      (if (s.get scratch.next.next.top).toNat < length.toNat then .ok () else .error .subscript)
      fun _ after => Leaves scratch s
        (s.get scratch.next.top + BitVec.ofNat 32 ((s.get scratch.next.next.top).toNat * elementSize.toNat)) after ∧
        after.get scratch.next.next.top =
          BitVec.ofNat 32 ((s.get scratch.next.next.top).toNat * elementSize.toNat) := by
  rw [elementCode, run?_addConstant, State.get_zero, zero_add, BitVec.ofInt_natCast]
  have hbound := leaves_put (s := s) (w := BitVec.ofNat 32 length.toNat) hlt
  generalize s.put scratch.next.next.next.top (BitVec.ofNat 32 length.toNat) = bound at hbound ⊢
  obtain ⟨hlength, hscratched⟩ := hbound
  have htaken : Mnemonic.bgeu.taken? (bound.get scratch.next.next.top) (bound.get scratch.next.next.next.top) =
      some (decide (length.toNat ≤ (s.get scratch.next.next.top).toNat)) := by
    rw [hscratched.kept, hlength, Mnemonic.taken?, BitVec.ule_eq_decide, BitVec.toNat_ofNat,
      Nat.mod_eq_of_lt length.toNat_lt]
  rw [run?_branch htaken]
  by_cases hin : (s.get scratch.next.next.top).toNat < length.toNat
  · rw [if_pos hin, if_neg (by simpa using hin)]
    have hgone := hscratched.trans (State.scratched_advance _ bound) (Nat.le_refl _)
    generalize bound.advance = checked at hgone ⊢
    rw [run?_mulConstant, BitVec.ofInt_natCast, hgone.kept]
    have hscaled : Leaves scratch.next checked _ (checked.put scratch.next.next.top
        (s.get scratch.next.next.top * BitVec.ofNat 32 elementSize.toNat)) := leaves_put (Nat.lt_of_succ_lt hlt)
    generalize checked.put scratch.next.next.top _ = scaled at hscaled ⊢
    obtain ⟨hsize, hscratched'⟩ := hscaled
    have harray : scaled.get scratch.next.top = s.get scratch.next.top := hscratched'.kept.trans hgone.below.kept
    have hsum : scaled.get scratch.next.next.second + scaled.get scratch.next.next.top = s.get scratch.next.top +
        BitVec.ofNat 32 ((s.get scratch.next.next.top).toNat * elementSize.toNat) := by
      rw [show scratch.next.next.second = scratch.next.top from rfl, harray, hsize, mul_ofNat]
    rw [run?_addRegister, hsum]
    have hadded : Leaves scratch scaled _ (scaled.put scratch.next.top (s.get scratch.next.top +
        BitVec.ofNat 32 ((s.get scratch.next.next.top).toNat * elementSize.toNat))) :=
      leaves_put (Nat.lt_of_succ_lt (Nat.lt_of_succ_lt hlt))
    obtain ⟨hvalue, hadded⟩ := hadded
    refine .ok rfl ⟨⟨hvalue, ?_⟩, ?_⟩
    · exact hgone.below.below.trans (hscratched'.below.trans hadded (Nat.le_refl _)) (Nat.le_refl _)
    · rw [State.get_put_of_ne Scratch.top_ne_second, hsize, mul_ofNat]
  · rw [if_neg hin, if_pos (by simpa using hin)]
    exact ⟨_, rfl⟩

mutual

/-- The code for a variable leaves the address of the place of its cell. -/
theorem Variable.locate_computes (hb : body.context.types.Built) (v : Variable) {type : TypeId}
    (ht : v.HasType body.around type)
    (hn : NotedIn body.context body.around v.subscripts) {scratch result : Scratch} {found : Assembly}
    (hg : (v.addressCode body scratch).Gives result found) {s : State World}
    (hs : Reads body cells store lies readable s) :
    Computes (body.Covers cells) (found.run? address s) (v.locate ⟨body.around, cells⟩ store)
      (LeavesAddress lies scratch s type) := by
  cases v with
  | named node name =>
    cases ht with
    | named ht => exact named_computes hs ht hg
  | element node array index =>
    cases ht with
    | @element _ _ _ arrayType _ length ha hi he =>
      obtain ⟨hn, hown⟩ := List.forall_mem_append.mp hn
      obtain ⟨hna, hni⟩ := List.forall_mem_append.mp hn
      obtain ⟨noted, hnoted, hfound⟩ := hown _ (List.mem_singleton_self _)
      obtain ⟨element, length', middle, last, first, rest, hshape, hga, hgi, hlt, -, rfl⟩ :=
        Variable.element_shape hg
      obtain rfl := array.addressCode_scratch hga
      obtain rfl := index.valueCode_scratch hgi
      obtain rfl := hnoted.unique ha
      rw [Body.noted?, hfound, Option.bind_some] at hshape
      obtain ⟨rfl, rfl⟩ := Prod.mk.inj (Option.some.inj (hshape.symm.trans he))
      rw [Variable.locate, List.append_assoc]
      refine (array.locate_computes hb ha hna hga hs).bind ?_
      rintro ⟨cell, located⟩ middle ⟨rfl, hlies, hsa⟩
      refine (index.eval_computes hb hi hni hgi (hs.scratched hsa) hs.int).bind ?_
      rintro word last ⟨rfl, hsi⟩
      have hcheck : Computes (body.Covers cells)
          ((elementCode scratch.next.next length' (body.context.types.byteSize element)).run? address last) _ _ :=
        elementCode_computes hlt
      rw [show body.around.types.array? located = some (element, length') from he]
      rw [hsi.kept, hb.byteSize_eq, Nat.mul_left_comm] at hcheck
      show Computes _ _ (if _ then _ else _) _
      by_cases hin : (last.get scratch.next.next.top).toNat < length'.toNat
      · rw [if_pos hin] at hcheck ⊢
        obtain ⟨after, hrun, ⟨hvalue, hsc⟩, -⟩ := hcheck
        refine .ok hrun ⟨rfl, ?_, hsa.trans (hsi.below.trans hsc (Nat.le_refl _)) (Nat.le_refl _)⟩
        rw [hvalue]
        exact hs.element hlies he hin
      · rw [if_neg hin] at hcheck ⊢
        exact hcheck

/-- The code for an expression leaves its value. -/
theorem Expr.eval_computes (hb : body.context.types.Built) (e : Expr) {type : TypeId}
    (ht : e.HasType body.around type)
    (hn : NotedIn body.context body.around e.subscripts) {scratch result : Scratch} {found : Assembly}
    (hg : (e.valueCode body scratch).Gives result found) {s : State World}
    (hs : Reads body cells store lies readable s) (hr : readable type) :
    Computes (body.Covers cells) (found.run? address s) (e.eval ⟨body.around, cells⟩ store) (Leaves scratch s) := by
  cases e with
  | literal node value =>
    obtain ⟨hlt, -, rfl⟩ := Expr.literal_shape hg
    rw [Expr.eval, run?_addConstant, State.get_zero, zero_add]
    exact .ok rfl (leaves_put hlt)
  | load node source =>
    cases ht with
    | load hv =>
      obtain ⟨first, hgs, rfl⟩ := Expr.load_shape hg
      obtain rfl := source.addressCode_scratch hgs
      rw [Expr.eval]
      refine (source.locate_computes hb hv hn hgs hs).bind ?_
      rintro ⟨cell, located⟩ after ⟨rfl, hlies, hsa⟩
      obtain ⟨ha, hm⟩ := (hs.scratched hsa).word hlies hr
      rw [run?_load ha, hm]
      obtain ⟨hvalue, hput⟩ := leaves_put (s := after) (w := store cell) (source.addressCode_room hgs)
      exact .ok rfl ⟨hvalue, hsa.trans hput (Nat.le_refl _)⟩
  | binary node op left right =>
    cases ht with
    | @arithmetic _ op _ _ hleft hright =>
      obtain ⟨hnl, hnr⟩ := List.forall_mem_append.mp hn
      obtain ⟨_, middle, last, first, rest, hop, hgl, hgr, -, rfl⟩ := Expr.binary_shape hg
      cases hop
      obtain rfl := left.valueCode_scratch hgl
      obtain rfl := right.valueCode_scratch hgr
      rw [Expr.eval, List.append_assoc]
      refine (left.eval_computes hb hleft hnl hgl hs hs.int).bind ?_
      rintro a middle ⟨rfl, hsl⟩
      refine (right.eval_computes hb hright hnr hgr (hs.scratched hsl) hs.int).bind ?_
      rintro b after ⟨rfl, hsr⟩
      rw [run?_compute, show scratch.next.next.second = scratch.next.top from rfl, hsr.kept]
      cases hw : op.apply (middle.get scratch.next.top) (after.get scratch.next.next.top) with
      | error fault =>
        obtain rfl := Arithmetic.apply_error hw
        exact fun _ => ⟨rfl, rfl⟩
      | ok word =>
        obtain ⟨hvalue, hput⟩ := leaves_put (s := after) (w := word) (left.valueCode_room hgl)
        exact .ok rfl ⟨hvalue, hsl.trans (hsr.below.trans hput (Nat.le_refl _)) (Nat.le_refl _)⟩
    | comparison =>
      obtain ⟨_, _, _, _, _, hop, _⟩ := Expr.binary_shape hg
      cases hop

end

end
end SplLang
