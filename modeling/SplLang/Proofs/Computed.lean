import SplLang.Proofs.Activations
import SplLang.Proofs.CheckingRules
import SplLang.Proofs.Computing
import SplLang.Proofs.Stages

/-! What the code of a body computes in a frame of its procedure, whatever the frame and the rest of the memory
hold: every address and every value in the body, with any number of scratch registers in use. -/
namespace SplLang
open Machine

namespace Body
variable {World : Type}

/-- Where the storage of a variable starts: at its offset from the frame pointer or, for a reference, at the
address that stands there. -/
def storage (body : Body) (s : State World) (name : Name) : Word :=
  match body.placed? name with
  | some (offset, false) => s.get .framePointer + offset.toBitVec
  | some (offset, true) => s.memory (s.get .framePointer + offset.toBitVec)
  | none => 0

/-- The address of a cell. The cells of a variable are the words from the start of its storage on. -/
def cellAddress (body : Body) (s : State World) (cell : Cell) : Word :=
  body.storage s cell.name + BitVec.ofNat 32 (4 * cell.index)

/-- What the memory holds in the cells. -/
def contents (body : Body) (s : State World) : Store := fun cell => s.memory (body.cellAddress s cell)

end Body

/-- Each variable of the procedure with its first cell. -/
def Procedure.cells (procedure : Procedure) : Keyed Name Cell :=
  procedure.ownNames.map fun name => (name, ⟨0, name, 0⟩)

/-- The frame pointer of the state stands at a frame of the procedure: at a word, like everything that the
references in the frame stand for. -/
structure Machine.State.Framed {World : Type} (s : State World) (body : Body) : Prop where
  pointer : Aligned (s.get .framePointer)
  references : ∀ name offset, body.placed? name = some (offset, true) →
    Aligned (s.memory (s.get .framePointer + offset.toBitVec))

/-- The code that leaves what the node means: the address of a variable or the value of an expression. -/
def TreeNode.code (body : Body) (scratch : Scratch) : TreeNode → Emit Scratch
  | .place v => v.addressCode body scratch
  | .value e => e.valueCode body scratch

/-- What the node means in a frame: the address of a variable or the value of an expression. -/
def TreeNode.meaning {World : Type} (body : Body) (cells : Keyed Name Cell) (s : State World) :
    TreeNode → Except Fault Word
  | .place v => (fun located => body.cellAddress s located.1) <$> v.locate ⟨body.around, cells⟩ (body.contents s)
  | .value e => e.eval ⟨body.around, cells⟩ (body.contents s)

private theorem Procedure.cells_at? {procedure : Procedure} {name : Name} {cell : Cell}
    (h : procedure.cells.at? name = some cell) : cell = ⟨0, name, 0⟩ := by
  obtain ⟨_, _, he⟩ := List.mem_map.mp (Keyed.mem_of_at? h)
  cases he
  rfl

private theorem aligned_neg_words (n : Nat) : Aligned (-BitVec.ofNat 32 (4 * n)) := by
  rw [Aligned, BitVec.toNat_neg, BitVec.toNat_ofNat]
  omega

section
variable {World : Type} {context : Context} {sigs : List Signature} {area : Signature → OutgoingArea}
  {sig : Signature} {s : State World}

/-- A variable of the procedure is placed at whole words from the frame pointer. -/
theorem Signature.placed_cases {types : TypeTable} {name : Name} {entry : Entry}
    (h : (name, entry) ∈ sig.placed types) :
    ∃ type byReference offset, entry = .var ⟨type, byReference, some offset⟩ ∧ Aligned offset.toBitVec := by
  rcases List.mem_append.mp h with h | h
  · obtain ⟨p, -, he⟩ := List.mem_map.mp h
    cases he
    refine ⟨_, _, _, rfl, ?_⟩
    rw [show (parameterOffset p.2).toBitVec = BitVec.ofNat 32 (4 * p.2) from BitVec.ofInt_natCast 32 _]
    exact aligned_words p.2
  · obtain ⟨d, -, he⟩ := List.mem_map.mp h
    cases he
    refine ⟨_, _, _, rfl, ?_⟩
    have hoffset : (localOffset d.2).toBitVec = -BitVec.ofNat 32 (4 * d.2) := by
      show BitVec.ofInt 32 (-(4 * d.2 : Nat)) = _
      rw [BitVec.ofInt_neg, BitVec.ofInt_natCast]
    rw [hoffset]
    exact aligned_neg_words d.2

/-- A name that means a variable is one of the procedure's own, and the code finds its place. -/
theorem Prepared.variable_placed (h : Prepared context sigs area) (hs : sig ∈ sigs) {name : Name} {type : TypeId}
    (ht : (sig.body context).around.varType? name = some type) :
    name ∈ sig.ownNames ∧ ∃ offset byReference,
      (sig.body context).placed? name = some (offset, byReference) ∧ Aligned offset.toBitVec := by
  obtain ⟨v, hv, -⟩ := Option.map_eq_some_iff.mp ht
  have hseen := h.seen.seen_variable hs name
  rw [show (context.scopes.seen? sig.scope name).bind (·.var?) = some v from hv] at hseen
  obtain ⟨entry, hat, -⟩ := Option.bind_eq_some_iff.mp hseen.symm
  have hm := Keyed.mem_of_at? hat
  obtain ⟨own, byReference, offset, rfl, ha⟩ := Signature.placed_cases hm
  refine ⟨?_, offset, byReference, (h.placed hs hm).1, ha⟩
  rw [← Signature.map_fst_placed context.types]
  exact List.mem_map_of_mem hm

/-- Every variable of the procedure has its cells. -/
theorem Prepared.covers (h : Prepared context sigs area) (hs : sig ∈ sigs) :
    (sig.body context).Covers sig.procedure.cells := by
  intro name type ht hnone
  obtain ⟨hown, -⟩ := h.variable_placed hs ht
  rw [← sig.map_fst_own, (h.fits sig hs).names] at hown
  rw [Keyed.at?_eq_none_iff, Procedure.cells, List.map_map] at hnone
  exact hnone (List.mem_map.mpr ⟨name, hown, rfl⟩)

private theorem Prepared.reads (h : Prepared context sigs area) (hs : sig ∈ sigs)
    (hframe : s.Framed (sig.body context)) :
    Reads (sig.body context) sig.procedure.cells ((sig.body context).contents s)
      (fun cell base _ => base = (sig.body context).cellAddress s cell ∧ Aligned base) (fun _ => True) s where
  binds := by
    intro name cell type hc ht
    obtain rfl := Procedure.cells_at? hc
    obtain ⟨-, offset, byReference, hp, ha⟩ := h.variable_placed hs ht
    refine ⟨offset, byReference, (sig.body context).storage s name, hp, ?_, ?_⟩
    · refine ⟨(BitVec.add_zero _).symm, ?_⟩
      unfold Body.storage
      rw [hp]
      cases byReference with
      | false => exact hframe.pointer.add ha
      | true => exact hframe.references name offset hp
    · unfold Body.storage
      rw [hp]
      cases byReference with
      | false => rfl
      | true => exact ⟨hframe.pointer.add ha, rfl⟩
  element := by
    rintro cell base type element length i ⟨rfl, ha⟩ _ _
    refine ⟨?_, ha.add (aligned_words _)⟩
    rw [Body.cellAddress, Body.cellAddress, Cell.shift, Nat.mul_add, BitVec.ofNat_add, BitVec.add_assoc]
  word := by
    rintro cell base type ⟨rfl, ha⟩ -
    exact ⟨ha, rfl⟩
  int := trivial

/-- For the arrays below a node their types are remembered. -/
theorem Recorded.noted_below {program : Program} {found : List Finding} (h : Recorded context sigs found)
    (hp : Prepared context sigs area) (hsigs : sigs.map (·.procedure) = program.procedures)
    (hn : program.nodeIds.Nodup) (hs : sig ∈ sigs) {node : TreeNode} (hnode : node ∈ allNodes sig.procedure.body) :
    NotedIn context (sig.around context) node.subscripts := by
  intro sub hsub
  have hbelow := allNodes_closed sig.procedure.body node hnode (node.subscripts_nodes hsub).2
  exact h.noted_node hp hsigs hn hs hbelow

/-- The code for a node computes what the node means. -/
theorem Prepared.node_computes (h : Prepared context sigs area) (hs : sig ∈ sigs)
    (hframe : s.Framed (sig.body context)) {node : TreeNode} {type : TypeId}
    (ht : node.HasType (sig.around context) type) (hn : NotedIn context (sig.around context) node.subscripts)
    {scratch result : Scratch} {code : Assembly} (hg : (node.code (sig.body context) scratch).Gives result code)
    (address : Label → Word) : Computes True (code.run? address s)
      (node.meaning (sig.body context) sig.procedure.cells s) (Leaves scratch s) := by
  have hreads := h.reads hs hframe
  have hcovers := h.covers hs
  cases node with
  | place v =>
    have ht : v.HasType (sig.body context).around type := ht
    refine (v.locate_computes h.built ht hn hg hreads).map hcovers ?_
    rintro ⟨cell, _⟩ after ⟨-, hlies, hscratched⟩
    exact ⟨hlies.1, hscratched⟩
  | value e =>
    have ht : e.HasType (sig.body context).around type := ht
    exact (e.eval_computes h.built ht hn hg hreads trivial).of_complete hcovers

end

private theorem TreeNode.code_scratch {body : Body} {scratch result : Scratch} {code : Assembly} (node : TreeNode)
    (hg : (node.code body scratch).Gives result code) : result = scratch.next := by
  cases node with
  | place v => exact v.addressCode_scratch hg
  | value e => exact e.valueCode_scratch hg

/-- A program gets as far as its frames, and no node number occurs twice in it. Then the code for an address or a
value in a body, run from any state in a frame of the procedure, leaves what is meant in the next scratch register
and changes nothing else that is in use. It jumps to the routine for subscripts out of bounds exactly if the source
meets one, and it has no run exactly if what is meant is undefined, as a quotient by zero is. -/
theorem compile_code_computes {program : Program} {c : Compilation} (hn : program.nodeIds.Nodup)
    (hc : (compile program .placed).1 = .ok c) {procedure : Procedure} (hp : procedure ∈ program.procedures) :
    ∃ scope, (c.context.scopes.procedure? procedure.name).bind (·.scope) = some scope ∧
      ∀ node ∈ allNodes procedure.body, ∀ scratch result, ∀ code : Assembly,
        (node.code ⟨c.context, scope⟩ scratch).Gives result code → result = scratch.next ∧
        ∀ {World : Type} (address : Label → Word) (s : State World), s.Framed ⟨c.context, scope⟩ →
          (∀ word, node.meaning ⟨c.context, scope⟩ procedure.cells s = .ok word →
            ∃ after, code.run? address s = some (.through after) ∧ Leaves scratch s word after) ∧
          (node.meaning ⟨c.context, scope⟩ procedure.cells s = .error .subscript ↔
            ∃ after, code.run? address s = some (.away Label.indexError after)) ∧
          (node.meaning ⟨c.context, scope⟩ procedure.cells s = .error .undefined ↔ code.run? address s = none) := by
  obtain ⟨sigs, area, found, hsigs, hprepared, hrecorded⟩ := compile_placed_prepared hc
  rw [← hsigs] at hp
  obtain ⟨sig, hs, rfl⟩ := List.mem_map.mp hp
  refine ⟨sig.scope, hprepared.seen.scope_iff.mpr ⟨sig, hs, rfl, rfl⟩, ?_⟩
  intro node hnode scratch result code hg
  obtain ⟨type, ht, -⟩ := hrecorded.noted_node hprepared hsigs hn hs hnode
  have hnoted := hrecorded.noted_below hprepared hsigs hn hs hnode
  refine ⟨node.code_scratch hg, ?_⟩
  intro World address s hframe
  exact (hprepared.node_computes hs hframe ht hnoted hg address).cases

/-- The element of a referenced array that the first element of the array stands for. -/
def indirectElement : Variable :=
  .element ⟨8, ⟨2, 3⟩⟩ (.named ⟨7, ⟨2, 3⟩⟩ "a")
    (.load ⟨6, ⟨2, 5⟩⟩ (.element ⟨5, ⟨2, 5⟩⟩ (.named ⟨4, ⟨2, 5⟩⟩ "a") (.literal ⟨3, ⟨2, 7⟩⟩ 0)))

/-- A procedure that assigns to that element. -/
def indirectPut : Procedure :=
  ⟨⟨1, 1⟩, "put", [⟨⟨1, 10⟩, "a", .array ⟨0, ⟨1, 17⟩⟩ 5 (.named ⟨1, ⟨1, 30⟩⟩ "int"), true⟩], [],
    [.assign ⟨2, 3⟩ indirectElement (.literal ⟨9, ⟨2, 14⟩⟩ 7)]⟩

def indirectAssigned : Program where
  position := ⟨1, 1⟩
  declarations := [.procedure indirectPut, .procedure ⟨⟨4, 1⟩, "main", [], [], []⟩]

/-- A frame at 1000. The array is at 2000 and has the given first element. -/
def indirectFrame (first : Word) : Machine.State Unit where
  pc := 0
  registers n := if n = 25 then 1000 else 0
  memory a := if a = 2000 then first else 2000
  calls := 0
  world := ()

private theorem indirectFrame_framed {first : Word} (h : Aligned first) (body : Body) :
    (indirectFrame first).Framed body := by
  refine ⟨show Aligned 1000 by decide, fun _ _ _ => ?_⟩
  show Aligned (if _ then first else 2000)
  split
  · exact h
  · decide

theorem indirectAssigned_computes : indirectAssigned.nodeIds.Nodup ∧
    ∃ c, (compile indirectAssigned .placed).1 = .ok c ∧ ∃ scope, ∃ code : Assembly,
      ((TreeNode.place indirectElement).code ⟨c.context, scope⟩ .empty).Gives Scratch.empty.next code ∧
      (indirectFrame 4).Framed ⟨c.context, scope⟩ ∧ (indirectFrame 8).Framed ⟨c.context, scope⟩ ∧
      (∃ after, code.run? (fun _ => 0) (indirectFrame 4) = some (.through after) ∧
        Leaves .empty (indirectFrame 4) 2016 after) ∧
      ∃ after, code.run? (fun _ => 0) (indirectFrame 8) = some (.away Label.indexError after) := by
  obtain ⟨c, hc⟩ := exists_ok_of_isOk (show (compile indirectAssigned .placed).1.isOk by decide +kernel)
  have hfacts : ((compile indirectAssigned .placed).1.toOption.map fun c =>
      ((c.context.scopes.procedure? "put").bind (·.scope),
        ((TreeNode.place indirectElement).code ⟨c.context, 1⟩ .empty).result,
        [4, 8].map fun first => (TreeNode.place indirectElement).meaning ⟨c.context, 1⟩ indirectPut.cells
          (indirectFrame first))) =
      some (some 1, .ok Scratch.empty.next, [.ok 2016, .error .subscript]) := by decide +kernel
  rw [hc] at hfacts
  simp only [Except.toOption, Option.map_some, List.map_cons, List.map_nil, Option.some.injEq, Prod.mk.injEq,
    List.cons.injEq, and_true] at hfacts
  obtain ⟨hscope, hcode, hlast, hout⟩ := hfacts
  have hput : indirectPut ∈ indirectAssigned.procedures := List.mem_cons_self
  obtain ⟨scope, hscope', h⟩ := compile_code_computes (by decide) hc hput
  obtain rfl := Option.some.inj (hscope.symm.trans hscope')
  have hnode : TreeNode.place indirectElement ∈ allNodes indirectPut.body :=
    List.mem_append_left _ (List.mem_append_left _ (Variable.mem_nodes _))
  have hgives := Trail.gives_of_ok hcode
  obtain ⟨-, hruns⟩ := h _ hnode _ _ _ hgives
  have hframed : (indirectFrame 4).Framed ⟨c.context, 1⟩ := indirectFrame_framed (by decide) _
  have hframed' : (indirectFrame 8).Framed ⟨c.context, 1⟩ := indirectFrame_framed (by decide) _
  exact ⟨by decide, c, hc, 1, _, hgives, hframed, hframed', (hruns _ _ hframed).1 _ hlast,
    (hruns _ _ hframed').2.1.mp hout⟩

end SplLang
