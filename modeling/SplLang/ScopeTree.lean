import SplLang.Entry
import SplLang.Keyed
import SplLang.Numbered

/-! Nested scopes. A scope holds entries by name and may lie in an older scope;
a name is seen in the nearest scope outward that holds it. -/
namespace SplLang

structure Scope where
  parent : Option ScopeId
  entries : Keyed Name Entry

/-- Scopes, the newest first: the scopes around one are among the older ones. -/
structure ScopeTree where
  newestFirst : List Scope

namespace ScopeTree

/-- The scope that lies in no other. -/
def globalScope : ScopeId := 0

/-- A global scope without entries. -/
def empty : ScopeTree := ⟨[⟨none, []⟩]⟩

def count (tree : ScopeTree) : Nat := tree.newestFirst.length

/-- Open a scope inside another. -/
def nest (tree : ScopeTree) (parent : ScopeId) : ScopeId × ScopeTree :=
  (tree.count, ⟨⟨some parent, []⟩ :: tree.newestFirst⟩)

def scope? (tree : ScopeTree) (scope : ScopeId) : Option Scope :=
  Numbered.at? tree.newestFirst scope

def parent? (tree : ScopeTree) (scope : ScopeId) : Option ScopeId :=
  (tree.scope? scope).bind (·.parent)

/-- The entry that a scope itself holds for a name. -/
def held? (tree : ScopeTree) (scope : ScopeId) (name : Name) : Option Entry :=
  (tree.scope? scope).bind (·.entries.at? name)

/-- The entry seen from a scope of the list for a name. -/
def seenIn? : List Scope → ScopeId → Name → Option Entry
  | [], _, _ => none
  | newest :: older, scope, name =>
    if scope = older.length then
      match newest.entries.at? name, newest.parent with
      | some entry, _ => some entry
      | none, some parent => seenIn? older parent name
      | none, none => none
    else seenIn? older scope name

/-- The entry that the nearest scope outward holds for a name. -/
def seen? (tree : ScopeTree) (scope : ScopeId) (name : Name) : Option Entry :=
  seenIn? tree.newestFirst scope name

/-- Change all entries of one scope. -/
def adjustEntries (tree : ScopeTree) (scope : ScopeId)
    (f : Keyed Name Entry → Keyed Name Entry) : ScopeTree :=
  ⟨Numbered.adjust (fun s => { s with entries := f s.entries }) tree.newestFirst scope⟩

/-- Declare a name in a scope; refused if that scope holds the name already. -/
def enter? (tree : ScopeTree) (scope : ScopeId) (name : Name) (entry : Entry) :
    Option ScopeTree :=
  match tree.held? scope name with
  | some _ => none
  | none => some (tree.adjustEntries scope (·.put name entry))

/-- Change the entry that a scope itself holds for a name, if it holds one. -/
def adjust (tree : ScopeTree) (scope : ScopeId) (name : Name) (f : Entry → Entry) : ScopeTree :=
  tree.adjustEntries scope (·.adjust f name)

/-- The entries of one scope in ascending order of their names. -/
def entries (tree : ScopeTree) (scope : ScopeId) : List (Name × Entry) :=
  match tree.scope? scope with
  | some held => held.entries.sorted
  | none => []

/-- The scopes with their numbers ascending. -/
def scopes (tree : ScopeTree) : List ScopeId := List.range tree.count

/-- A scope of the list and those around it, the innermost first. -/
def outwardIn : List Scope → ScopeId → List ScopeId
  | [], _ => []
  | newest :: older, scope =>
    if scope = older.length then
      match newest.parent with
      | some parent => scope :: outwardIn older parent
      | none => [scope]
    else outwardIn older scope

/-- A scope and those around it, the innermost first. -/
def outward (tree : ScopeTree) (scope : ScopeId) : List ScopeId :=
  outwardIn tree.newestFirst scope

end ScopeTree
end SplLang
