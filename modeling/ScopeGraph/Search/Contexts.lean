/-
  File:      ScopeGraph/Search/Contexts.lean
  Subject:   Finding the contexts of a kind that a name stands for.
-/
import ScopeGraph.Search.Table
import ScopeGraph.Search.Walk

namespace ScopeGraph

namespace Graph

variable (g : Graph)

/-- Whether a context is of the kind looked for and its path is one of the
    names. Names meant from the root reach only a context without parent. -/
def contextHere (kind : ContextKind) (c : ContextId) (data : Context)
    (names : List NameTrie) : List ContextId :=
  if data.kind = kind && names.any (fun t =>
      t.hasName (g.scopePath c) && (data.parent.isNone || !t.rooted)) then [c]
  else []

/-- What a file sees of one registered context: the position does not matter
    inside a class. -/
def checkContext (kind : ContextKind) (top : TopId) (position : Option Position)
    (c : ContextId) : Query (List ContextId) := do
  match g.context? c with
  | none => do
    Query.warn .staleContextInTable
    return []
  | some data =>
    if data.kind ≠ kind then return []
    let some other := g.topOf? c | return []
    return if ← g.fileSees top other data.range.start (data.parent.any g.isClass) position
      then [c] else []

/-- What the symbol table answers to a file. -/
def contextsInTable (kind : ContextKind) (top : TopId) (names : List NameTrie)
    (position : Option Position) : Query (List ContextId) := do
  let paths ← g.expandNames top position (kind = .nameSpace)
    ((names.flatMap (·.names)).map (·.path))
  gatherM (fun p => gatherM (g.checkContext kind top position) (g.table.findContexts p)) paths

/-- The search for contexts of a kind. -/
def contextQuest (kind : ContextKind) : Quest ContextId where
  inTable := g.contextsInTable kind
  here c data names _ := return g.contextHere kind c data names
  whole := kind = .nameSpace
  firstOnly := false

/-- The contexts of a kind that a name stands for, seen from a context. -/
def findContexts (c : ContextId) (kind : ContextKind) (name : QualName)
    (position : Option Position) (flags : SearchFlags) : Query (List ContextId) :=
  g.search (g.contextQuest kind) flags.climbs c name position

end Graph

end ScopeGraph
