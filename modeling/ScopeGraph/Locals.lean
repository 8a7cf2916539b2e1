/-
  File:      ScopeGraph/Locals.lean
  Subject:   The declarations of one context: in order, and by name.

  `ordered` holds the context's own declarations by where they start.
  `index` holds names: those of the context's own declarations, and those
  that inner contexts propagate to it.
-/
import ScopeGraph.Handle
import ScopeGraph.Multimap
import ScopeGraph.Name
import ScopeGraph.Span

namespace ScopeGraph

/-! ## 1. Lists ordered by start -/

/-- `a` put into a list behind the last item that does not start after it,
    and in front of all items if every one starts after it. -/
def insertByStart {α : Type} (startOf : α → Position) (a : α) (start : Position) :
    List α → List α
  | [] => [a]
  | x :: rest =>
    if (x :: rest).all fun y => decide (start < startOf y) then a :: x :: rest
    else x :: insertByStart startOf a start rest

/-! ## 2. The declarations of a context -/

/-- Own declarations by start, and all indexed names. -/
structure Locals where
  ordered : List DeclId := []
  index : Multimap Ident DeclId := {}
  deriving DecidableEq, Repr, Inhabited

namespace Locals

/-- The declarations indexed under a name. -/
def find (l : Locals) (name : Ident) : List DeclId := l.index.find name

/-- One more name in the index. -/
def addName (l : Locals) (name : Ident) (d : DeclId) : Locals :=
  { l with index := l.index.insert name d }

/-- One name fewer in the index. -/
def dropName (l : Locals) (name : Ident) (d : DeclId) : Locals :=
  { l with index := l.index.erase name d }

/-- Many names added to the index, in order. -/
def addNames (l : Locals) (names : List (Ident × DeclId)) : Locals :=
  names.foldl (fun l p => l.addName p.1 p.2) l

/-- Many names taken from the index, in order. -/
def dropNames (l : Locals) (names : List (Ident × DeclId)) : Locals :=
  names.foldl (fun l p => l.dropName p.1 p.2) l

/-- A declaration put in its place in the order. -/
def place (l : Locals) (startOf : DeclId → Position) (d : DeclId) (start : Position) :
    Locals :=
  { l with ordered := insertByStart startOf d start l.ordered }

/-- A declaration taken out of the order. -/
def displace (l : Locals) (d : DeclId) : Locals :=
  { l with ordered := l.ordered.erase d }

end Locals

end ScopeGraph
