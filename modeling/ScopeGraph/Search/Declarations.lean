/-
  File:      ScopeGraph/Search/Declarations.lean
  Subject:   Finding the declarations a name stands for.
-/
import ScopeGraph.Search.Table
import ScopeGraph.Search.Walk

namespace ScopeGraph

namespace Graph

variable (g : Graph)

/-! ## 1. In one context -/

/-- What one hit in the index of a context stands for: a declaration that
    passes the filter and is no namespace. The hit itself has to be seen from
    the position, for an alias is seen where it is written. -/
def checkLocal (data : Context) (position : Option Position) (filter : DeclFilter)
    (hit : DeclId) : Noted (List DeclId) := do
  let some d ← Noted.ofExcept (g.resolveAlias hit) | return []
  let some found := g.declaration? d | return []
  let seen := data.kind.ignoresOrder || seenFrom (g.startOfDeclaration hit) position
  return if !found.kind.isNamespaceAlias && filter.accepts found && seen then [d] else []

/-- What a name stands for in the index of a context. -/
def localMatches (data : Context) (name : Ident) (position : Option Position)
    (filter : DeclFilter) : Noted (List DeclId) :=
  gatherM (g.checkLocal data position filter) (data.locals.find name)

/-- What a name stands for in the index of a context; every declaration
    once. -/
def findLocal (c : ContextId) (name : Ident) (position : Option Position)
    (filter : DeclFilter) : Noted (List DeclId) := do
  match g.context? c with
  | some data => return (← g.localMatches data name position filter).eraseDups
  | none => return []

/-! ## 2. Along the way of a search -/

/-- What a context that is no namespace answers: the names of one segment
    that are not meant from the root are looked up in its index. -/
def declarationsHere (filter : DeclFilter) (data : Context) (names : List NameTrie)
    (position : Option Position) : Noted (List DeclId) :=
  if data.kind = .nameSpace then return []
  else gatherM (fun t => g.localMatches data t.segment position filter)
    (names.filter fun t => !t.rooted && !t.hasNext)

/-- What the symbol table answers to a file. -/
def declarationsInTable (filter : DeclFilter) (top : TopId) (names : List NameTrie)
    (position : Option Position) : Query (List DeclId) := do
  let paths ← g.expandNames top position false ((names.flatMap (·.names)).map (·.path))
  gatherM (fun p => do
    let ds ← g.checkDeclarations top position filter (g.table.findDeclarations p)
    return ds.filter fun d => !(g.declaration? d).any (·.kind.isNamespaceAlias)) paths

/-- The search for declarations. -/
def declarationQuest (filter : DeclFilter) : Quest DeclId where
  inTable := g.declarationsInTable filter
  here _ := g.declarationsHere filter
  whole := false
  firstOnly := true

/-- The declarations a name stands for, seen from a context. -/
def findDeclarations (c : ContextId) (name : QualName) (position : Option Position)
    (type : Option TypeId) (flags : SearchFlags) : Query (List DeclId) :=
  g.search (g.declarationQuest ⟨type, flags.onlyFunctions⟩) flags.climbs c name position

end Graph

end ScopeGraph
