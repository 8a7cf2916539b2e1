/-
  File:      ScopeGraph/SymbolTable.lean
  Subject:   The symbol table: declarations and contexts under full paths.

  Registered files enter their named scopes and their declarations here.
  Under one path the nodes stand in the order in which they were entered,
  each at most once. Every entry and removal is a `TableChange`, so that the
  history of a table can be told (`SymbolTable.apply`).
-/
import ScopeGraph.Handle
import ScopeGraph.Multimap
import ScopeGraph.Name

namespace ScopeGraph

/-- The declarations and the contexts registered under each path. -/
structure SymbolTable where
  declarations : Multimap Path DeclId := {}
  contexts : Multimap Path ContextId := {}
  deriving DecidableEq, Repr, Inhabited

/-- One entry into a table or one removal from it. -/
inductive TableChange where
  | addDeclaration (key : Path) (d : DeclId)
  | removeDeclaration (key : Path) (d : DeclId)
  | addContext (key : Path) (c : ContextId)
  | removeContext (key : Path) (c : ContextId)
  deriving DecidableEq, Repr

namespace SymbolTable

/-- The declarations under a path. -/
def findDeclarations (t : SymbolTable) (key : Path) : List DeclId :=
  t.declarations.find key

/-- The contexts under a path. -/
def findContexts (t : SymbolTable) (key : Path) : List ContextId :=
  t.contexts.find key

/-- The table after a change. -/
def apply (t : SymbolTable) : TableChange → SymbolTable
  | .addDeclaration key d => { t with declarations := t.declarations.insertNew key d }
  | .removeDeclaration key d => { t with declarations := t.declarations.erase key d }
  | .addContext key c => { t with contexts := t.contexts.insertNew key c }
  | .removeContext key c => { t with contexts := t.contexts.erase key c }

/-- Whether a removal finds what it is to remove; an entry always succeeds. -/
def admits (t : SymbolTable) : TableChange → Bool
  | .removeDeclaration key d => decide (d ∈ t.findDeclarations key)
  | .removeContext key c => decide (c ∈ t.findContexts key)
  | _ => true

/-- The number of paths with a declaration. -/
def declarationKeys (t : SymbolTable) : Nat := t.declarations.keys.length

/-- The number of paths with a context. -/
def contextKeys (t : SymbolTable) : Nat := t.contexts.keys.length

/-- Whether the table holds nothing. -/
def isEmpty (t : SymbolTable) : Bool := t.declarations.isEmpty && t.contexts.isEmpty

/-- The length of the longest path with a declaration. -/
def longestKey (t : SymbolTable) : Nat :=
  (t.declarations.keys.map List.length).foldl max 0

end SymbolTable

end ScopeGraph
