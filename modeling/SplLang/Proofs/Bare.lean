import SplLang.Frame.Placement
import SplLang.Proofs.Outward
import SplLang.Report.Scopes

/-! Scopes without the places in them: offsets and area sizes are forgotten. What is left is what
the declarations said, and it is all that the readable tables show. -/
namespace SplLang

def Slot.bare (slot : Slot) : Slot := { slot with offset := none }

def ProcedureEntry.bare (entry : ProcedureEntry) : ProcedureEntry :=
  { entry with
    parameters := entry.parameters.map Slot.bare
    argumentArea := none
    localArea := none
    outgoing := none }

/-- An entry without its places. -/
def Entry.bare : Entry → Entry
  | .type id => .type id
  | .var entry => .var { entry with offset := none }
  | .proc entry => .proc entry.bare

/-- The entries with their names, each without its places. -/
def bareEntries (entries : Keyed Name Entry) : Keyed Name Entry :=
  entries.map fun pair => (pair.1, pair.2.bare)

def Scope.bare (scope : Scope) : Scope := { scope with entries := bareEntries scope.entries }

def ScopeTree.bare (tree : ScopeTree) : ScopeTree := ⟨tree.newestFirst.map Scope.bare⟩

theorem Numbered.at?_map {α β : Type} (f : α → β) (xs : List α) (i : Nat) :
    at? (xs.map f) i = (at? xs i).map f := by
  induction xs with
  | nil => rfl
  | cons x xs ih =>
    rw [List.map_cons, at?, at?, List.length_map, ih]
    split <;> rfl

private theorem Numbered.map_adjust {α β : Type} {f : α → α} {g : α → β} (h : ∀ x, g (f x) = g x)
    (xs : List α) (i : Nat) : (adjust f xs i).map g = xs.map g := by
  induction xs with
  | nil => rfl
  | cons x xs ih =>
    rw [adjust]
    split
    · rw [List.map_cons, List.map_cons, h]
    · rw [List.map_cons, List.map_cons, ih]

private theorem bareEntries_adjust {f : Entry → Entry} (h : ∀ entry, (f entry).bare = entry.bare)
    (entries : Keyed Name Entry) (name : Name) : bareEntries (entries.adjust f name) = bareEntries entries := by
  rw [bareEntries, bareEntries]
  induction entries with
  | nil => rfl
  | cons pair rest ih =>
    rw [Keyed.adjust]
    split
    · next hk => rw [List.map_cons, List.map_cons, h, hk]
    · rw [List.map_cons, List.map_cons, ih]

private theorem ScopeTree.bare_adjust {f : Entry → Entry} (h : ∀ entry, (f entry).bare = entry.bare)
    (tree : ScopeTree) (scope : ScopeId) (name : Name) : (tree.adjust scope name f).bare = tree.bare := by
  refine congrArg ScopeTree.mk (Numbered.map_adjust (fun s => ?_) _ _)
  exact congrArg (Scope.mk s.parent) (bareEntries_adjust h _ _)

private theorem map_bare_setOffsets (slots : List Slot) (offsets : List UInt32) :
    (setOffsets slots offsets).map Slot.bare = slots.map Slot.bare := by
  induction slots generalizing offsets with
  | nil => cases offsets <;> rfl
  | cons slot slots ih =>
    cases offsets with
    | nil => rfl
    | cons offset offsets => exact congrArg (slot.bare :: ·) (ih offsets)

/-- Placing writes nothing but places. -/
theorem Placement.bare_put (scopes : ScopeTree) (placement : Placement) :
    (placement.put scopes).bare = scopes.bare := by
  cases placement with
  | variableAt scope name offset => exact ScopeTree.bare_adjust (fun entry => by cases entry <;> rfl) _ _ _
  | areas procedure slots argumentArea localArea =>
    refine ScopeTree.bare_adjust (fun entry => ?_) _ _ _
    cases entry with
    | proc entry => simp only [Entry.mapProc, Entry.bare, ProcedureEntry.bare, map_bare_setOffsets]
    | _ => rfl
  | outgoing procedure area => exact ScopeTree.bare_adjust (fun entry => by cases entry <;> rfl) _ _ _

theorem bare_foldl_put (placements : List Placement) (scopes : ScopeTree) :
    (placements.foldl Placement.put scopes).bare = scopes.bare := by
  induction placements generalizing scopes with
  | nil => rfl
  | cons placement rest ih => exact (ih _).trans (placement.bare_put scopes)

namespace ScopeTree
variable (tree : ScopeTree)

theorem count_bare : tree.bare.count = tree.count := List.length_map _

theorem parent?_bare (scope : ScopeId) : tree.bare.parent? scope = tree.parent? scope := by
  rw [parent?, parent?, scope?, scope?, bare, Numbered.at?_map]
  cases Numbered.at? tree.newestFirst scope <;> rfl

theorem held?_bare (scope : ScopeId) (name : Name) :
    tree.bare.held? scope name = (tree.held? scope name).map Entry.bare := by
  rw [held?, held?, scope?, scope?, bare, Numbered.at?_map]
  cases Numbered.at? tree.newestFirst scope with
  | none => rfl
  | some held => exact Keyed.at?_map _ _ _

theorem outward_bare (scope : ScopeId) : tree.bare.outward scope = tree.outward scope := by
  refine outward_congr ?_ scope
  rw [bare, List.map_map]
  rfl

private theorem insertSorted_map {μ ν : Type} (f : μ → ν) (pair : String × μ) (pairs : List (String × μ)) :
    Keyed.insertSorted (pair.1, f pair.2) (pairs.map fun p => (p.1, f p.2)) =
      (Keyed.insertSorted pair pairs).map fun p => (p.1, f p.2) := by
  induction pairs with
  | nil => rfl
  | cons head rest ih =>
    rw [List.map_cons, Keyed.insertSorted, Keyed.insertSorted]
    split
    · rfl
    · rw [ih, List.map_cons]

private theorem sorted_map {μ ν : Type} (f : μ → ν) (m : Keyed String μ) :
    Keyed.sorted (m.map fun p => (p.1, f p.2)) = m.sorted.map fun p => (p.1, f p.2) := by
  induction m with
  | nil => rfl
  | cons pair rest ih =>
    have h := insertSorted_map f pair (Keyed.sorted rest)
    rw [← ih] at h
    exact h

private theorem entries_bare (scope : ScopeId) :
    tree.bare.entries scope = (tree.entries scope).map fun pair => (pair.1, pair.2.bare) := by
  rw [entries, entries, scope?, scope?, bare, Numbered.at?_map]
  cases Numbered.at? tree.newestFirst scope with
  | none => rfl
  | some held => exact sorted_map Entry.bare held.entries

theorem scope_procedure?_bare (name : Name) :
    (tree.bare.procedure? name).bind (·.scope) = (tree.procedure? name).bind (·.scope) := by
  rw [procedure?, procedure?, held?_bare]
  cases tree.held? globalScope name with
  | none => rfl
  | some entry => cases entry <;> rfl

end ScopeTree

private theorem Entry.text_bare (types : TypeTable) (entry : Entry) : entry.bare.text types = entry.text types := by
  cases entry with
  | proc entry =>
    have hslots : (entry.parameters.map Slot.bare).map (·.text types) = entry.parameters.map (·.text types) :=
      List.map_map ..
    simp only [Entry.bare, Entry.text, ProcedureEntry.bare, hslots]
  | _ => rfl

section
variable {context context' : Context}

private theorem levelText_eq (htypes : context.types = context'.types)
    (hscopes : context.scopes.bare = context'.scopes.bare) (level : Nat) (scope : ScopeId) :
    levelText context level scope = levelText context' level scope := by
  have hline : ∀ tree : ScopeTree, (tree.entries scope).map (fun pair =>
      padded 10 pair.1 ++ " --> " ++ pair.2.text context.types ++ "\n") =
      (tree.bare.entries scope).map fun pair => padded 10 pair.1 ++ " --> " ++ pair.2.text context.types ++ "\n" := by
    intro tree
    rw [tree.entries_bare, List.map_map]
    refine List.map_congr_left fun pair _ => ?_
    rw [Function.comp_apply, Entry.text_bare]
  have htext : ∀ c : Context, levelText c level scope = s!"level {level}\n" ++
      String.join ((c.scopes.entries scope).map fun pair =>
        padded 10 pair.1 ++ " --> " ++ pair.2.text c.types ++ "\n") := fun _ => rfl
  rw [htext, htext, ← htypes, hline, hline context'.scopes, hscopes]

/-- The readable tables depend on the types and on the bare scopes only. -/
theorem Program.tablesText_congr (htypes : context.types = context'.types)
    (hscopes : context.scopes.bare = context'.scopes.bare) (program : Program) :
    program.tablesText context = program.tablesText context' := by
  rw [tablesText, tablesText]
  congr 2
  funext procedure
  rw [Procedure.tablesText, Procedure.tablesText, ← context.scopes.scope_procedure?_bare, hscopes,
    context'.scopes.scope_procedure?_bare]
  cases (context'.scopes.procedure? procedure.name).bind (·.scope) with
  | none => rfl
  | some scope =>
    have hlevels : levelText context = levelText context' := by
      funext level scope
      exact levelText_eq htypes hscopes level scope
    simp only [hlevels, ← context.scopes.outward_bare, hscopes, context'.scopes.outward_bare]

end
end SplLang
