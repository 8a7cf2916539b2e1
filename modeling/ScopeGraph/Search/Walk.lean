/-
  File:      ScopeGraph/Search/Walk.lean
  Subject:   The way of a search through contexts, imports and parents.

  A search starts in a context. In each context it takes what the context
  has, then looks at what the context imports, the last import first, and
  then goes on in the parent. Names change on the way: by the namespace
  imports and aliases of each context, and on the way out of a namespace. A
  registered file is the end of the way: it answers from the symbol table.

  Imports may run in circles. The walk goes at most as many imports deep as
  the graph's limit says, and a walk that went through an import never goes
  on in a parent.
-/
import ScopeGraph.Query
import ScopeGraph.Search.Aliases

namespace ScopeGraph

/-! ## 1. What is searched for -/

/-- What a search takes on its way. -/
structure Quest (α : Type) where
  /-- What the symbol table answers to a file. -/
  inTable : TopId → List NameTrie → Option Position → Query (List α)
  /-- What a context itself answers. -/
  here : ContextId → Context → List NameTrie → Option Position → Noted (List α)
  /-- Whether a name may be the name of a namespace as a whole. -/
  whole : Bool
  /-- Whether the search ends with the first context that has an answer. A
      namespace has none of its own: what is found before it does not end
      the search in it. -/
  firstOnly : Bool

/-- The state of a search in a context: the search is over, or it may go on
    in the parent with other names. -/
inductive Level (α : Type) where
  | done (found : List α)
  | goOn (data : Context) (names : List NameTrie) (found : List α)

/-- What was found at a level. -/
def Level.found {α : Type} : Level α → List α
  | .done found => found
  | .goOn _ _ found => found

/-- A search inside an imported context, given what was found before. -/
abbrev Descent (α : Type) :=
  ContextId → List NameTrie → Option Position → List α → Query (List α)

namespace Graph

variable (g : Graph) {α : Type}

/-! ## 2. One context -/

/-- Whether an import is written after the position looked from. -/
def importHidden (position : Option Position) (i : Import) : Bool :=
  match position, i.position with
  | some p, some written => decide (p < written)
  | _, _ => false

/-- The position from which an imported context is looked at: in the same
    file the same, in another file its end. -/
def positionIn (c : ContextId) (i : Import) (target : Context) (position : Option Position) :
    Option Position :=
  if g.fileOf? c = g.fileOf? i.context then position else some target.range.stop

/-- The search in one imported context. -/
def searchImport (c : ContextId) (names : List NameTrie) (position : Option Position)
    (descend : Descent α) (found : List α) (i : Import) : Query (List α) :=
  match g.context? i.context with
  | none => do
    Query.warn .importedGone
    pure found
  | some target =>
    if importHidden position i then pure found
    else descend i.context names (g.positionIn c i target position) found

/-- The search in all that a context imports, the last import first; no
    descent means that the walk is as deep as it may be. -/
def searchImports (c : ContextId) (data : Context) (names : List NameTrie)
    (position : Option Position) (descent : Option (Descent α)) (found : List α) :
    Query (List α) :=
  let unrooted := names.filter (!·.rooted)
  if data.imports.isEmpty || unrooted.isEmpty then pure found
  else match descent with
    | none => do
      Query.warn .importsTooDeep
      pure found
    | some descend =>
      data.imports.reverse.foldlM (g.searchImport c unrooted position descend) found

/-- The search in one context and in what it imports. -/
def searchLevel (q : Quest α) (descent : Option (Descent α)) (c : ContextId)
    (names : List NameTrie) (position : Option Position) (found : List α) :
    Query (Level α) := do
  match g.context? c with
  | none => do
    Query.warn .staleContextReached
    return .done found
  | some data =>
    if data.isTop && data.registered then
      return .done (found ++ (← q.inTable ⟨c⟩ names position))
    let found := found ++ (← q.here c data names position)
    if q.firstOnly && data.kind ≠ .nameSpace && !found.isEmpty then return .done found
    let names ← g.aliased c position q.whole names
    let found ← g.searchImports c data names position descent found
    if q.firstOnly && !found.isEmpty then return .done found
    return .goOn data names found

/-! ## 3. Through imports and parents -/

/-- The search inside an imported context, at most `depth` imports deeper. -/
def searchImported (q : Quest α) : Nat → Descent α
  | 0, c, names, position, found => do
    return (← g.searchLevel q none c names position found).found
  | n + 1, c, names, position, found => do
    return (← g.searchLevel q (some (searchImported q n)) c names position found).found

/-- The descent from a context that has `depth` imports below it left. -/
def descentAt (q : Quest α) : Nat → Option (Descent α)
  | 0 => none
  | n + 1 => some (g.searchImported q n)

/-- The search in a chain of contexts, each the parent of the one before. -/
def searchUp (q : Quest α) (climbs : Bool) (position : Option Position) :
    List ContextId → List NameTrie → List α → Query (List α)
  | [], _, found => return found
  | c :: above, names, found => do
    match ← g.searchLevel q (g.descentAt q g.limits.importDepth) c names position found with
    | .done found => return found
    | .goOn data names found =>
      if climbs then searchUp q climbs position above (g.upwards data above names) found
      else return found

/-- The search for a name from a context; every answer once, the first kept. -/
def search [BEq α] (q : Quest α) (climbs : Bool) (c : ContextId) (name : QualName)
    (position : Option Position) : Query (List α) := do
  if g.hasContext c then
    return (← g.searchUp q climbs position (g.lineage c) [.ofName name] []).eraseDups
  else
    Query.warn .searchFromStale
    return []

end Graph

end ScopeGraph
