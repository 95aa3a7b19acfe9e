import SplLang.Proofs.Computing
import SplLang.Proofs.Places

/-! Code for variables, expressions and conditions computes what they mean. It writes no memory and
no register that was in use before. -/
namespace SplLang
open Machine

section
variable {World : Type} {target : Target World} {places : Places target} {body : Body}
  {cells : Keyed Name Cell} {store : Store} {scratch : Scratch} {found : Assembly} {n : Nat} {s after : State World}

/-- The code has run to its end, and it has changed no more than the scratch registers that were
not in use. -/
structure Evaluated (target : Target World) (n : Nat) (scratch : Scratch) (s after : State World) :
    Prop where
  pc : after.pc = target.codeAddress n
  scratched : s.Scratched (Scratch.first + scratch.inUse) after

/-- What the code of an expression relies on: variables are found and hold the store. -/
structure Places.Ready (places : Places target) (body : Body) (cells : Keyed Name Cell) (store : Store)
    (s : State World) : Prop where
  binds : places.Binds body cells (s.get .framePointer) s.memory
  stores : places.Stores store s.memory

theorem Places.Ready.evaluated (h : places.Ready body cells store s)
    (he : Evaluated target n scratch s after) : places.Ready body cells store after := by
  have hfp : after.get .framePointer = s.get .framePointer := he.scratched.get (.inr (Nat.le_succ 24))
  refine ⟨?_, ?_⟩
  · rw [hfp, he.scratched.memory]
    exact h.binds
  · rw [he.scratched.memory]
    exact h.stores

/-- The places of cells are what code reads. -/
theorem Places.Ready.reads (h : places.Ready body cells store s) (hb : body.context.types.Built) :
    Reads body cells store (fun cell base type => places.Region cell base (body.context.types.words type))
      (· = TypeId.int) s where
  binds := by
    intro name cell type hc ht
    obtain ⟨offset, byReference, base, hp, hregion, hbase⟩ := h.binds name cell type hc ht
    refine ⟨offset, byReference, base, hp, hregion, ?_⟩
    cases byReference with
    | false => exact hbase
    | true => exact ⟨hbase.1, hbase.2.2⟩
  element := by
    intro cell base type element length i hregion he hi
    obtain ⟨-, hwords, -⟩ := hb.array he
    exact (hwords ▸ hregion).element hi
  word := by
    rintro cell base type hregion rfl
    rw [hb.words_int] at hregion
    have hplace := hregion.place Nat.one_pos
    exact ⟨places.aligned hplace, h.stores _ _ hplace⟩
  int := rfl

/-- The address of a variable is left in the next scratch register. -/
structure Located (places : Places target) (body : Body) (n : Nat) (scratch : Scratch) (s : State World)
    (type : TypeId) (located : Cell × TypeId) (after : State World) : Prop where
  evaluated : Evaluated target n scratch s after
  typed : located.2 = type
  region : places.Region located.1 (after.get scratch.next.top) (body.context.types.words type)

section
variable (hl : target.Loaded) (hb : body.context.types.Built)
include hl hb

/-- The code for a variable leaves the address of the place of its cell. -/
theorem Variable.locate_follows (v : Variable) {type : TypeId} (ht : v.HasType body.around type)
    (hn : NotedIn body.context body.around v.subscripts) {scratch result : Scratch} {found : Assembly}
    (hg : (v.addressCode body scratch).Gives result found) {n : Nat} (hat : target.CodeAt n found)
    {s : State World} (hpc : s.pc = target.codeAddress n) (hs : places.Ready body cells store s) :
    target.Follows s (v.locate ⟨body.around, cells⟩ store)
      (Located places body (n + Assembly.size found) scratch s type) := by
  have hcomputes := (v.locate_computes hb ht hn hg (hs.reads hb)).follows hl hat hpc
  refine hcomputes.mono ?_
  rintro located after ⟨hend, htyped, hregion, hscratched⟩
  exact ⟨⟨hend, hscratched⟩, htyped, hregion⟩

/-- The code for an expression leaves its value. -/
theorem Expr.eval_follows (e : Expr) (ht : e.HasType body.around TypeId.int)
    (hn : NotedIn body.context body.around e.subscripts) {scratch result : Scratch} {found : Assembly}
    (hg : (e.valueCode body scratch).Gives result found) {n : Nat} (hat : target.CodeAt n found)
    {s : State World} (hpc : s.pc = target.codeAddress n) (hs : places.Ready body cells store s) :
    target.Follows s (e.eval ⟨body.around, cells⟩ store) fun word after =>
      Evaluated target (n + Assembly.size found) scratch s after ∧ after.get scratch.next.top = word := by
  have hreads := hs.reads hb
  have hcomputes := (e.eval_computes hb ht hn hg hreads hreads.int).follows hl hat hpc
  refine hcomputes.mono ?_
  rintro word after ⟨hend, hvalue, hscratched⟩
  exact ⟨⟨hend, hscratched⟩, hvalue⟩

/-- The code for a condition goes on if it holds, and to its label if not. -/
theorem Expr.test_follows {condition : Expr} (ht : condition.HasType body.around TypeId.boolean)
    (hn : NotedIn body.context body.around condition.subscripts) {l : Label} {u : Unit}
    (hg : (condition.conditionCode body l).Gives u found) (hat : target.CodeAt n found)
    (hpc : s.pc = target.codeAddress n) (hs : places.Ready body cells store s) :
    target.Follows s (condition.test ⟨body.around, cells⟩ store) fun holds after =>
      after.pc = (if holds then target.codeAddress (n + Assembly.size found) else target.address l) ∧
        s.Scratched Scratch.first after := by
  obtain ⟨node, comparison, left, right, middle, last, first, rest, rfl, hgl, hgr, rfl⟩ :=
    Expr.condition_shape hg
  obtain rfl := left.valueCode_scratch hgl
  obtain rfl := right.valueCode_scratch hgr
  obtain ⟨hnl, hnr⟩ := List.forall_mem_append.mp hn
  have htail := hat.right
  rw [Assembly.size_append, ← Nat.add_assoc] at htail
  cases ht with
  | comparison hleft hright =>
    rw [Expr.test]
    refine (left.eval_follows hl hb hleft hnl hgl hat.left.left hpc hs).bind ?_
    rintro a middle - ⟨hml, rfl⟩
    refine (right.eval_follows hl hb hright hnr hgr hat.left.right hml.pc (hs.evaluated hml)).bind ?_
    rintro b after - ⟨hmr, rfl⟩
    have hbranch := htail.branch hl hmr.pc (comparison.taken?_negated _ _)
    have hsame := hml.scratched.trans hmr.scratched.below (Nat.le_refl _)
    have hsecond : after.get Scratch.empty.next.next.second = middle.get Scratch.empty.next.top := hmr.scratched.kept
    rw [hsecond] at hbranch
    rw [Assembly.size_append, Assembly.size_append, ← Nat.add_assoc, ← Nat.add_assoc]
    refine .ok hbranch ?_
    cases comparison.holds (middle.get Scratch.empty.next.top) (after.get Scratch.empty.next.next.top) with
    | true => exact ⟨Target.advance_pc_eq hmr.pc, hsame.trans (State.scratched_advance _ _) (Nat.le_refl _)⟩
    | false => exact ⟨rfl, hsame.memory, hsame.calls, hsame.world, hsame.registers⟩

end
end
end SplLang
