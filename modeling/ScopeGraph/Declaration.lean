/-
  File:      ScopeGraph/Declaration.lean
  Subject:   Declarations and what they stand for.
-/
import ScopeGraph.Handle
import ScopeGraph.Name
import ScopeGraph.Span

namespace ScopeGraph

/-- A type of the analysed language, by its number in a type table. -/
structure TypeId where
  number : Nat
  deriving DecidableEq, Repr, Inhabited

/-- What a declaration stands for. An `alias` stands for another declaration,
    which may be lost. A `namespaceAlias` stands for a namespace: under a name
    of its own it renames the namespace, under the reserved identifier it
    imports the names of the namespace. -/
inductive DeclKind where
  | ordinary
  | function
  | alias (target : Option DeclId)
  | namespaceAlias (target : QualName)
  deriving DecidableEq, Repr, Inhabited

namespace DeclKind

/-- Whether the declaration is a function. -/
def isFunction : DeclKind → Bool
  | .function => true
  | _ => false

/-- Whether the declaration stands for another declaration. -/
def isAlias : DeclKind → Bool
  | .alias _ => true
  | _ => false

/-- Whether the declaration stands for a namespace. -/
def isNamespaceAlias : DeclKind → Bool
  | .namespaceAlias _ => true
  | _ => false

/-- The namespace a declaration stands for, if it stands for one. -/
def namespaceTarget : DeclKind → Option QualName
  | .namespaceAlias target => some target
  | _ => none

end DeclKind

/-- A declaration: its name and place, the context that holds it, and the
    context it opens. -/
structure Declaration where
  name : Ident
  range : Span
  kind : DeclKind := .ordinary
  /-- The context that holds the declaration. -/
  context : Option ContextId := none
  type : Option TypeId := none
  /-- The context the declaration opens, as a class or a function does. -/
  internal : Option ContextId := none
  /-- The path under which the symbol table holds the declaration. -/
  key : Option Path := none
  deriving DecidableEq, Repr, Inhabited

end ScopeGraph
