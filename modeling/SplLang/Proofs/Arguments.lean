import SplLang.Proofs.Evaluation

/-! The code before a call leaves what is passed in the words of the stack from the stack pointer
upwards, one for each parameter. -/
namespace SplLang
open Machine

namespace Places
variable {World : Type} {target : Target World} {places : Places target} {types : TypeTable}
  {memory after : Word → Word} {k : Nat} {kind : TypeId × Bool} {kinds : List (TypeId × Bool)}
  {argument : Argument} {arguments : List Argument}

/-- The word stands for what is passed: it is the value, or the address of what is referenced. -/
def Passes (places : Places target) (types : TypeTable) (word : Word) (kind : TypeId × Bool) :
    Argument → Prop
  | .value value => kind.2 = false ∧ word = value
  | .reference cell => kind.2 = true ∧ places.Region cell word (types.words kind.1)

/-- The arguments for parameters of the given kinds lie in the stack from a word of it on. -/
def Passed (places : Places target) (types : TypeTable) (memory : Word → Word) :
    Nat → List (TypeId × Bool) → List Argument → Prop
  | _, [], [] => True
  | k, kind :: kinds, argument :: arguments =>
    places.Passes types (memory (target.slot k)) kind argument ∧ Passed places types memory (k + 1) kinds arguments
  | _, [], _ :: _ | _, _ :: _, [] => False

theorem Passed.congr (h : places.Passed types memory k kinds arguments)
    (hm : ∀ i, k ≤ i → i < k + kinds.length → after (target.slot i) = memory (target.slot i)) :
    places.Passed types after k kinds arguments := by
  induction kinds generalizing k arguments with
  | nil =>
    cases arguments with
    | nil => trivial
    | cons argument arguments => cases h
  | cons kind kinds ih =>
    cases arguments with
    | nil => cases h
    | cons argument arguments =>
      obtain ⟨hfirst, hrest⟩ := h
      rw [List.length_cons] at hm
      refine ⟨?_, ih hrest fun i hle hlt => hm i (by omega) (by omega)⟩
      rw [hm k (Nat.le_refl k) (by omega)]
      exact hfirst

theorem Passed.length (h : places.Passed types memory k kinds arguments) : arguments.length = kinds.length := by
  induction kinds generalizing k arguments with
  | nil =>
    cases arguments with
    | nil => rfl
    | cons argument arguments => cases h
  | cons kind kinds ih =>
    cases arguments with
    | nil => cases h
    | cons argument arguments => rw [List.length_cons, List.length_cons, ih h.2]

/-- Each argument by its number. -/
theorem Passed.get (h : places.Passed types memory k kinds arguments) {i : Nat} (hk : kinds[i]? = some kind)
    (ha : arguments[i]? = some argument) : places.Passes types (memory (target.slot (k + i))) kind argument := by
  induction kinds generalizing k arguments i with
  | nil => cases hk
  | cons first kinds ih =>
    cases arguments with
    | nil => cases h
    | cons passed arguments =>
      cases i with
      | zero =>
        cases hk
        cases ha
        exact h.1
      | succ i =>
        rw [List.getElem?_cons_succ] at hk ha
        have hget := ih h.2 hk ha
        rwa [Nat.add_assoc, Nat.add_comm 1 i] at hget

/-- For a parameter that is no reference a value is passed. -/
theorem Passed.value (h : places.Passed types memory k kinds arguments) {i : Nat} {type : TypeId}
    (hk : kinds[i]? = some (type, false)) :
    arguments[i]? = some (.value (memory (target.slot (k + i)))) := by
  obtain ⟨hlt, -⟩ := List.getElem?_eq_some_iff.mp hk
  rw [← h.length] at hlt
  have harg := List.getElem?_eq_getElem hlt
  have hpasses := h.get hk harg
  rw [harg]
  cases hvalue : arguments[i] with
  | value word =>
    rw [hvalue] at hpasses
    rw [hpasses.2]
  | reference cell =>
    rw [hvalue] at hpasses
    cases hpasses.1

/-- Nothing has changed but scratch registers and words of the stack from the given one up to the
limit. -/
structure Wrote (places : Places target) (low : Nat) (s after : State World) : Prop where
  calls : after.calls = s.calls
  world : after.world = s.world
  registers : ∀ r, 24 ≤ r → after.registers r = s.registers r
  memory : ∀ a, (∀ k, low ≤ k → k < places.limit → a ≠ target.slot k) → after.memory a = s.memory a

section
variable {low high : Nat} {s middle last : State World}

theorem Wrote.trans (h : places.Wrote low s middle) (h' : places.Wrote high middle last) (hle : low ≤ high) :
    places.Wrote low s last where
  calls := h'.calls.trans h.calls
  world := h'.world.trans h.world
  registers r hr := (h'.registers r hr).trans (h.registers r hr)
  memory a ha := (h'.memory a fun k hk => ha k (Nat.le_trans hle hk)).trans (h.memory a ha)

theorem Wrote.get (h : places.Wrote low s last) {r : Register} (hr : 24 ≤ r.number) : last.get r = s.get r := by
  unfold State.get
  rw [h.registers r.number hr]

private theorem Wrote.of_scratched {first : Nat} (h : s.Scratched first last) : places.Wrote low s last where
  calls := h.calls
  world := h.world
  registers r hr := h.registers r (.inr hr)
  memory a _ := by rw [h.memory]

private theorem wrote_store {w : Word} (hk : low ≤ k) (hlt : k < places.limit) :
    places.Wrote low s (s.store (target.slot k) w) where
  calls := rfl
  world := rfl
  registers _ _ := rfl
  memory a ha := by rw [State.store_memory, Function.update_of_ne (ha k hk hlt)]

theorem Wrote.kept (h : places.Wrote low s last) {a : Word} (ha : places.Kept a) :
    last.memory a = s.memory a := h.memory a fun k _ hlt => ha.above k hlt

theorem Wrote.stores (h : places.Wrote low s last) {store : Store} (hs : places.Stores store s.memory) :
    places.Stores store last.memory :=
  hs.congr fun _ a hc => h.memory a fun _ _ hlt => places.apart hc hlt

private theorem Wrote.ready (h : places.Wrote low s last) {body : Body} {cells : Keyed Name Cell} {store : Store}
    (hs : places.Ready body cells store s) : places.Ready body cells store last where
  binds := by
    have hfp : last.get .framePointer = s.get .framePointer := h.get (Nat.le_succ 24)
    rw [hfp]
    exact hs.binds.congr fun _ ha => h.kept ha
  stores := h.stores hs.stores

end
end Places

/-- The slots of parameters in their order, from the word with the given number on; values are
passed for an `int` only. -/
def Slotted : Nat → List Slot → Prop
  | _, [] => True
  | k, slot :: slots =>
    slot.offset = some (UInt32.ofNat (4 * k)) ∧ (slot.byReference = false → slot.type = TypeId.int) ∧
      Slotted (k + 1) slots

theorem ofNat_toNat (n : Nat) : BitVec.ofNat 32 (UInt32.ofNat n).toNat = BitVec.ofNat 32 n := by
  show BitVec.ofNat 32 (BitVec.ofNat 32 n).toNat = _
  rw [BitVec.ofNat_toNat, BitVec.setWidth_eq]

section
variable {World : Type} {target : Target World} {places : Places target} {body : Body}
  {cells : Keyed Name Cell} {store : Store} {found : Assembly} {n : Nat} {s : State World}
  (hl : target.Loaded) (hb : body.context.types.Built)
include hl hb

private theorem Expr.pass_follows {slot : Slot} {argument : Expr}
    (hf : argument.FitsParameter body.around (slot.type, slot.byReference))
    (hv : slot.byReference = false → slot.type = TypeId.int)
    (hn : NotedIn body.context body.around argument.subscripts) {last : Scratch}
    (hg : (argument.argumentCode body slot.byReference).Gives last found) (hat : target.CodeAt n found)
    (hpc : s.pc = target.codeAddress n) (hs : places.Ready body cells store s) :
    target.Follows s (argument.pass ⟨body.around, cells⟩ store slot.byReference) fun passed after =>
      Evaluated target (n + Assembly.size found) .empty s after ∧
        places.Passes body.context.types (after.get Scratch.empty.next.top) (slot.type, slot.byReference) passed := by
  obtain ⟨ht, -⟩ := hf
  cases hr : slot.byReference with
  | false =>
    rw [hr] at hg
    rw [hv hr] at ht
    have hvalue := argument.eval_follows hl hb ht hn (Expr.value_argument_shape hg) hat hpc hs
    refine hvalue.bind ?_
    rintro word after - ⟨hev, hw⟩
    exact .ok (.refl after) ⟨hev, rfl, hw⟩
  | true =>
    rw [hr] at hg
    obtain ⟨node, source, rfl, hgs⟩ := Expr.reference_argument_shape hg
    cases ht with
    | load ht =>
      have hlocate := source.locate_follows hl hb ht hn hgs hat hpc hs
      refine hlocate.bind ?_
      rintro ⟨cell, type⟩ after - ⟨hev, -, hregion⟩
      exact .ok (.refl after) ⟨hev, rfl, hregion⟩

/-- The arguments of a call are evaluated and stored from left to right. -/
theorem arguments_follow {callee : Name} (slots : List Slot) (arguments : List Expr) {k room : Nat}
    (hk : Slotted k slots) (hf : List.Forall₂ (Expr.FitsParameter body.around) arguments
      (slots.map fun slot => (slot.type, slot.byReference)))
    (hn : NotedIn body.context body.around (arguments.flatMap (·.subscripts))) {u : Unit}
    (hg : (argumentsCode body callee slots arguments).Gives u found) (hat : target.CodeAt n found)
    (hpc : s.pc = target.codeAddress n) (hs : places.Ready body cells store s)
    (hsp : s.get .stackPointer = target.slot room) (halign : Aligned target.stack)
    (hroom : room + k + slots.length ≤ places.limit) :
    target.Follows s (passAll ⟨body.around, cells⟩ store slots arguments) fun passed after =>
      after.pc = target.codeAddress (n + Assembly.size found) ∧ places.Wrote (room + k) s after ∧
        places.Passed body.context.types after.memory (room + k)
          (slots.map fun slot => (slot.type, slot.byReference)) passed := by
  induction slots generalizing arguments k n s found with
  | nil =>
    cases hf
    obtain ⟨-, rfl⟩ := Trail.gives_pure.mp hg
    exact .ok (.refl s) ⟨hpc, .of_scratched (.refl 0 s), trivial⟩
  | cons slot slots ih =>
    obtain ⟨hoffset, hv, hrest⟩ := hk
    cases hf with
    | @cons argument _ arguments _ hfit hf =>
      obtain ⟨offset, last, first, rest, ho, hga, hgr, rfl⟩ := arguments_shape hg
      obtain rfl := Expr.argumentCode_scratch hga
      cases hoffset.symm.trans ho
      rw [List.flatMap_cons] at hn
      obtain ⟨hna, hnr⟩ := List.forall_mem_append.mp hn
      rw [List.length_cons] at hroom
      rw [passAll]
      refine (argument.pass_follows hl hb hfit hv hna hga hat.left hpc hs).bind ?_
      rintro passed middle - ⟨hm, hpassed⟩
      have hwrote : places.Wrote (room + k) s middle := .of_scratched hm.scratched
      have haddress : middle.get .stackPointer + BitVec.ofInt 32 (UInt32.ofNat (4 * k)).toNat =
          target.slot (room + k) := by
        have hkept : middle.get .stackPointer = s.get .stackPointer := hwrote.get (by decide)
        rw [hkept, hsp, BitVec.ofInt_natCast, ofNat_toNat, Target.slot_add]
      have hstore := hat.right.store hl hm.pc (by rw [haddress]; exact Target.aligned_slot halign _)
      rw [haddress] at hstore
      have hstored : places.Wrote (room + k) s (middle.store (target.slot (room + k)) (middle.get Scratch.empty.next.top)) :=
        hwrote.trans (Places.wrote_store (Nat.le_refl _) (by omega)) (Nat.le_refl _)
      refine .behind hstore ?_
      refine (ih arguments hrest hf hnr hgr hat.right.tail ?_ ?_ ?_ ?_).bind ?_
      · exact Target.store_pc_eq hm.pc
      · exact hstored.ready hs
      · rw [hstored.get (by decide), hsp]
      · omega
      rintro others after - ⟨hpc', hw, hothers⟩
      have hsame : after.memory (target.slot (room + k)) = middle.get Scratch.empty.next.top := by
        rw [hw.memory, State.store_memory, Function.update_self]
        intro j hj hlt he
        have hnumber := places.slot_inj (by omega) hlt he
        omega
      refine .ok (.refl after) ⟨?_, hstored.trans hw (by omega), ?_, hothers⟩
      · rw [hpc']
        simp only [Assembly.size_append, Assembly.size_instr, Assembly.size_nil]
        congr 1
        omega
      · rw [hsame]
        exact hpassed

end
end SplLang
