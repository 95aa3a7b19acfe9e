import Mathlib.Order.Bounds.Defs
import SplLang.Proofs.Convention

/-! The outgoing area of a procedure as the largest of its calls. Which procedures a body calls decides it, not where
the calls stand, in which order they come or how often. -/
namespace SplLang

/-- A call by the given name stands in the statement, at any depth. -/
inductive Stmt.Calls (name : Name) : Stmt → Prop where
  | call {position : Position} {arguments : List Expr} : Calls name (.call position name arguments)
  | thenOnly {position : Position} {condition : Expr} {thenPart : Stmt} :
      Calls name thenPart → Calls name (.ifThen position condition thenPart)
  | thenPart {position : Position} {condition : Expr} {thenPart elsePart : Stmt} :
      Calls name thenPart → Calls name (.ifElse position condition thenPart elsePart)
  | elsePart {position : Position} {condition : Expr} {thenPart elsePart : Stmt} :
      Calls name elsePart → Calls name (.ifElse position condition thenPart elsePart)
  | body {position : Position} {condition : Expr} {body : Stmt} :
      Calls name body → Calls name (.whileDo position condition body)
  | block {position : Position} {body : List Stmt} {stmt : Stmt} :
      stmt ∈ body → Calls name stmt → Calls name (.block position body)

/-- A call by the given name stands in one of the statements. -/
def CallIn (name : Name) (body : List Stmt) : Prop := ∃ stmt ∈ body, stmt.Calls name

section
variable {name : Name}

mutual

/-- The callees of a statement are the names of the calls in it. -/
theorem Stmt.mem_callees (s : Stmt) : name ∈ s.callees ↔ s.Calls name := by
  cases s with
  | assign position target value => exact iff_of_false List.not_mem_nil nofun
  | ifThen position condition thenPart =>
    exact thenPart.mem_callees.trans ⟨.thenOnly, fun | .thenOnly h => h⟩
  | ifElse position condition thenPart elsePart =>
    rw [Stmt.callees, List.mem_append, thenPart.mem_callees, elsePart.mem_callees]
    exact ⟨fun h => h.elim .thenPart .elsePart, fun | .thenPart h => .inl h | .elsePart h => .inr h⟩
  | whileDo position condition body =>
    exact body.mem_callees.trans ⟨.body, fun | .body h => h⟩
  | call position callee arguments =>
    rw [Stmt.callees, List.mem_singleton]
    constructor
    · rintro rfl
      exact .call
    · rintro ⟨⟩
      rfl
  | block position body =>
    exact (mem_allCallees body).trans ⟨fun ⟨_, hm, h⟩ => .block hm h, fun | .block hm h => ⟨_, hm, h⟩⟩
  | empty position => exact iff_of_false List.not_mem_nil nofun

theorem mem_allCallees (body : List Stmt) : name ∈ allCallees body ↔ CallIn name body := by
  cases body with
  | nil => exact iff_of_false List.not_mem_nil nofun
  | cons stmt rest =>
    rw [allCallees, List.mem_append, stmt.mem_callees, mem_allCallees rest]
    exact (List.exists_mem_cons_iff _ _ _).symm

end
end

/-- The sizes of the argument areas of the procedures that statements call. -/
def ScopeTree.calledAreas (scopes : ScopeTree) (scope : ScopeId) (body : List Stmt) : Set UInt32 :=
  {bytes | ∃ name, CallIn name body ∧ (scopes.callee? scope name).bind (·.argumentArea) = some bytes}

section
variable {scopes : ScopeTree} {scope : ScopeId} {area : OutgoingArea} {body : List Stmt}

/-- An area that covers the calls and is no larger than one of them is as large as the largest. -/
theorem SizedBy.isGreatest (h : SizedBy scopes scope .noCalls area (allCallees body))
    (hc : CallsCovered scopes scope area (allCallees body)) {size : UInt32} :
    area = .bytes size ↔ IsGreatest (scopes.calledAreas scope body) size := by
  have hbound : ∀ bytes ∈ scopes.calledAreas scope body, area.Covers bytes := by
    rintro bytes ⟨name, hcall, hbytes⟩
    obtain ⟨same, hsame, hcovers⟩ := hc name ((mem_allCallees body).mpr hcall)
    rw [hbytes] at hsame
    cases hsame
    exact hcovers
  have hreached : area.hasCalls → area.size ∈ scopes.calledAreas scope body := by
    intro hcalls
    rcases h with rfl | ⟨name, hm, hbytes⟩
    · cases hcalls
    · exact ⟨name, (mem_allCallees body).mp hm, hbytes⟩
  constructor
  · rintro rfl
    exact ⟨hreached rfl, fun bytes hm => (hbound bytes hm).2⟩
  · rintro ⟨hm, hupper⟩
    obtain ⟨hcalls, hle⟩ := hbound size hm
    have heq := UInt32.le_antisymm (hupper (hreached hcalls)) hle
    cases area with
    | noCalls => cases hcalls
    | bytes held => exact congrArg _ heq

/-- There is no area exactly if there are no calls. -/
theorem SizedBy.noCalls_iff (h : SizedBy scopes scope .noCalls area (allCallees body))
    (hc : CallsCovered scopes scope area (allCallees body)) :
    area = .noCalls ↔ ∀ name, ¬ CallIn name body := by
  constructor
  · rintro rfl name hcall
    obtain ⟨_, _, hcalls, _⟩ := hc name ((mem_allCallees body).mpr hcall)
    cases hcalls
  · intro hnone
    rcases h with he | ⟨name, hm, _⟩
    · exact he
    · exact absurd ((mem_allCallees body).mp hm) (hnone name)

/-- Statements that call the same procedures come to the same area. -/
theorem outgoingAll_of_same_calls {others : List Stmt} (hc : CallsCovered scopes scope area (allCallees body))
    (h : SizedBy scopes scope .noCalls area (allCallees body))
    (hsame : ∀ name, CallIn name others ↔ CallIn name body) :
    (outgoingAll scopes scope .noCalls others).result = .ok area := by
  have hsized : CallsSized scopes scope (allCallees others) := by
    intro name hm
    obtain ⟨size, hsize, _⟩ := hc name ((mem_allCallees body).mpr ((hsame name).mp ((mem_allCallees others).mp hm)))
    exact ⟨size, hsize⟩
  obtain ⟨other, hr, hoc, ho⟩ := outgoingAll_sized hsized
  have hareas : scopes.calledAreas scope others = scopes.calledAreas scope body := by
    unfold ScopeTree.calledAreas
    simp only [hsame]
  rw [hr]
  refine congrArg _ ?_
  cases area with
  | noCalls =>
    rw [ho.noCalls_iff hoc]
    simp only [hsame]
    exact (h.noCalls_iff hc).mp rfl
  | bytes size =>
    rw [ho.isGreatest hoc, hareas]
    exact (h.isGreatest hc).mp rfl

end

/-- What a procedure reserves for its calls is what the largest of them needs. -/
structure Program.ReservesLargest (program : Program) (scopes : ScopeTree) (procedure : Procedure) (scope : ScopeId)
    (area : OutgoingArea) : Prop where
  own : (scopes.procedure? procedure.name).bind (·.scope) = some scope
  reserved : (scopes.procedure? procedure.name).bind (·.outgoing) = some area
  noCalls_iff : area = .noCalls ↔ ∀ name, ¬ CallIn name procedure.body
  bytes_iff : ∀ size, area = .bytes size ↔ IsGreatest (scopes.calledAreas scope procedure.body) size
  /-- A call means the procedure, whatever the body's own scope holds for the name. -/
  callee : ∀ name, scopes.callee? scope name = scopes.procedure? name
  /-- What is called is sized wherever it is declared. -/
  sized : ∀ name, CallIn name procedure.body → ∃ entry bytes, scopes.procedure? name = some entry ∧
    program.Callee scopes name entry ∧ entry.argumentArea = some bytes ∧ bytes.toNat = 4 * entry.parameters.length
  /-- Neither the order nor the number of the calls counts. -/
  calls : ∀ body, (∀ name, CallIn name body ↔ CallIn name procedure.body) →
    (outgoingAll scopes scope .noCalls body).result = .ok area

/-- Every procedure of a program whose frames are laid out reserves what the largest of its calls needs. -/
theorem compile_reserves_largest {program : Program} {c : Compilation} (hc : (compile program .placed).1 = .ok c)
    {procedure : Procedure} (hp : procedure ∈ program.procedures) :
    ∃ scope area, program.ReservesLargest c.context.scopes procedure scope area := by
  obtain ⟨sigs, area, found, hsigs, hprepared, -⟩ := compile_placed_prepared hc
  rw [← hsigs] at hp
  obtain ⟨sig, hs, rfl⟩ := List.mem_map.mp hp
  have hentry := hprepared.seen.procedure?_of_mem hs
  have hcovered := hprepared.covered sig hs
  have hsized := hprepared.sized sig hs
  have hcallee : ∀ name, c.context.scopes.callee? sig.scope name = c.context.scopes.procedure? name := by
    intro name
    apply Option.ext
    intro entry
    rw [hprepared.seen.callee?_iff hs, hprepared.seen.procedure?_iff]
  refine ⟨sig.scope, area sig, ?_, ?_, hsized.noCalls_iff hcovered, fun size => hsized.isGreatest hcovered, hcallee,
    fun name hcall => ?_, fun body => outgoingAll_of_same_calls hcovered hsized⟩
  · rw [hentry]
    exact hprepared.seen.scope sig hs
  · rw [hentry]
    rfl
  · obtain ⟨size, hsize, _⟩ := hcovered name ((mem_allCallees _).mpr hcall)
    obtain ⟨entry, he, _⟩ := Option.bind_eq_some_iff.mp hsize
    have hglobal := (hprepared.seen.callee?_iff hs).mp he
    have hcallable := hprepared.callable hglobal
    exact ⟨entry, _, (hcallee name).symm.trans he, hprepared.callee hsigs hglobal, hcallable.argumentArea,
      UInt32.toNat_ofNat_of_lt' hcallable.fits⟩

/-- In `main` a local has the name of a later procedure that is called with it, and the other calls stand deeper. -/
def widthPassed : Program where
  position := ⟨1, 1⟩
  declarations := [
    .procedure {
      position := ⟨1, 1⟩
      name := "main"
      parameters := []
      locals := [⟨⟨2, 3⟩, "width", .named ⟨0, ⟨2, 14⟩⟩ "int"⟩]
      body := [
        .ifElse ⟨3, 3⟩
          (.binary ⟨1, ⟨3, 13⟩⟩ (.comparison .lt) (.load ⟨2, ⟨3, 7⟩⟩ (.named ⟨3, ⟨3, 7⟩⟩ "width")) (.literal ⟨4, ⟨3, 15⟩⟩ 1))
          (.block ⟨3, 18⟩ [
            .call ⟨4, 5⟩ "printi" [.load ⟨5, ⟨4, 12⟩⟩ (.named ⟨6, ⟨4, 12⟩⟩ "width")],
            .call ⟨5, 5⟩ "main" []])
          (.whileDo ⟨6, 10⟩
            (.binary ⟨7, ⟨6, 23⟩⟩ (.comparison .gt) (.load ⟨8, ⟨6, 17⟩⟩ (.named ⟨9, ⟨6, 17⟩⟩ "width"))
              (.literal ⟨10, ⟨6, 25⟩⟩ 9))
            (.call ⟨6, 28⟩ "width" [.load ⟨11, ⟨6, 34⟩⟩ (.named ⟨12, ⟨6, 34⟩⟩ "width"), .literal ⟨13, ⟨6, 41⟩⟩ 2]))] },
    .procedure {
      position := ⟨8, 1⟩
      name := "width"
      parameters := [⟨⟨8, 12⟩, "w", .named ⟨14, ⟨8, 19⟩⟩ "int", true⟩, ⟨⟨8, 24⟩, "by", .named ⟨15, ⟨8, 28⟩⟩ "int", false⟩]
      locals := []
      body := [] }]

theorem widthPassed_reserves_largest :
    ∃ c, (compile widthPassed .placed).1 = .ok c ∧ ∃ procedure ∈ widthPassed.procedures, procedure.name = "main" ∧
      ∃ scope area, widthPassed.ReservesLargest c.context.scopes procedure scope area := by
  obtain ⟨c, hc⟩ := exists_ok_of_isOk (show (compile widthPassed .placed).1.isOk by decide +kernel)
  exact ⟨c, hc, _, List.mem_cons_self, rfl, compile_reserves_largest hc List.mem_cons_self⟩

end SplLang
