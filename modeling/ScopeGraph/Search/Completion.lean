/-
  File:      ScopeGraph/Search/Completion.lean
  Subject:   Everything that can be named from a context.

  The names of a context come first, then those of what it imports, then
  those of its parent. Each declaration comes with its distance: one more for
  each import or parent that was passed, and `namespaceDistance` more from
  the first namespace or file on. No context is listed twice.
-/
import ScopeGraph.Search.Walk

namespace ScopeGraph

/-- The contexts that were listed, and what was listed. -/
structure Listing where
  visited : List ContextId := []
  items : List (DeclId × Nat) := []
  deriving DecidableEq, Repr, Inhabited

/-- The distance at which the declarations of a context are listed that is
    met at a distance. -/
def Context.listedAt (data : Context) (distance : Nat) : Nat :=
  if data.kind.isNamespaceLike && distance < namespaceDistance then
    distance + namespaceDistance
  else distance

namespace Graph

variable (g : Graph)

/-- The names of a context that are seen from a position, at a distance. -/
def listHere (data : Context) (position : Option Position) (distance : Nat) :
    List (DeclId × Nat) :=
  data.locals.index.values.filterMap fun d =>
    match g.declaration? d with
    | some decl => if seenFrom decl.range.start position then some (d, distance) else none
    | none => none

/-- The imports of a context that are alive and not written after a
    position, the last first. -/
def openImports (data : Context) (position : Option Position) : List ContextId :=
  (data.imports.reverse.filter fun i =>
    g.hasContext i.context && !importHidden position i).map (·.context)

/-- A context and, at most `n` imports deep, all that it imports, unless it
    was listed before. -/
def listFrom : Nat → Option Position → Nat → Listing → ContextId → Listing
  | 0, _, _, l, _ => l
  | n + 1, position, distance, l, c =>
    if c ∈ l.visited then l
    else
      let l := { l with visited := c :: l.visited }
      match g.context? c with
      | none => l
      | some data =>
        let distance := data.listedAt distance
        let l := { l with items := l.items ++ g.listHere data position distance }
        (g.openImports data position).foldl (listFrom n none (distance + 1)) l

/-- A chain of contexts, each the parent of the one before, up to the first
    that was listed before. -/
def listUp (position : Option Position) : Nat → Listing → List ContextId → Listing
  | _, l, [] => l
  | distance, l, c :: above =>
    if c ∈ l.visited then l
    else
      let listed := g.listFrom g.chainBound position distance l c
      match g.context? c with
      | none => listed
      | some data => listUp position (data.listedAt distance + 1) listed above

/-- Everything that can be named from a context, with its distance; without
    parents, only what the context itself and its imports hold. -/
def allDeclarations (c : ContextId) (position : Option Position) (parents : Bool) :
    List (DeclId × Nat) :=
  (g.listUp position 0 {} (if parents then g.lineage c else [c])).items

end Graph

end ScopeGraph
