/-
  File:      ScopeGraph/Search/Aliases.lean
  Subject:   What the namespace imports and aliases of a context, and its own
             place in namespaces, make of the names looked for.

  A namespace import of `N` lets `x` be found as `N::x` too. A namespace
  alias `A` of `N` lets `A::x` be found as `N::x` instead. Inside a namespace
  `M` a name may also be meant as `M::x`, with the names of what encloses
  `M` in front of it.
-/
import ScopeGraph.Alias
import ScopeGraph.NameTrie

namespace ScopeGraph

namespace Graph

variable (g : Graph)

/-- The target of a namespace alias, if it is one and its text ends before
    the position looked from. -/
def aliasTarget (position : Option Position) (d : DeclId) : Noted (Option QualName) := do
  match ← Noted.ofExcept (g.liveDeclaration d) with
  | some data =>
    return if isAfter data.range.stop position then none else data.kind.namespaceTarget
  | none => return none

/-- The targets of those declarations of a list that are namespace aliases
    seen from a position. -/
def aliasTargets (position : Option Position) : List DeclId → Noted (List QualName) :=
  gatherM fun d => do return (← g.aliasTarget position d).toList

/-- Whether the first segment of a trie may be the name of a namespace alias
    that renames; `whole` says that it may be the only segment. -/
def mayRename (whole : Bool) (t : NameTrie) : Bool :=
  !t.isEmpty && (t.hasNext || whole)

/-- What the imports and aliases of a context make of one trie of names. -/
def aliasedItem (c : ContextId) (position : Option Position) (whole : Bool) (t : NameTrie) :
    Noted (List NameTrie) := do
  if t.rooted then return [t]
  let imports ← g.aliasTargets position (g.indexed c .globalImport)
  let renames ← g.aliasTargets position
    (if mayRename whole t then g.indexed c t.segment else [])
  return imports.map (NameTrie.under · t) ++ renames.map (NameTrie.underAll · t.next) ++
    (if renames.isEmpty then [t] else [])

/-- What the imports and aliases of a context make of the names looked for. -/
def aliased (c : ContextId) (position : Option Position) (whole : Bool) :
    List NameTrie → Noted (List NameTrie) :=
  gatherM (g.aliasedItem c position whole)

/-- A trie of names with the scope names of live contexts in front, from the
    innermost of the list to the outermost. -/
def qualifiedBy (t : NameTrie) : List ContextId → NameTrie
  | [] => t
  | c :: rest =>
    match g.context? c with
    | some data => qualifiedBy (NameTrie.under data.scopeName t) rest
    | none => t

/-- The names looked for on the way out of a context: out of a named
    namespace, also those that are meant inside it. `above` are the contexts
    above it. -/
def upwards (data : Context) (above : List ContextId) (names : List NameTrie) :
    List NameTrie :=
  if data.kind = .nameSpace && !data.scopeName.isEmpty then
    let inner := (NameTrie.ofName data.scopeName).graft names
    if inner.hasNext then (g.qualifiedBy inner above).fromRoot :: names else names
  else names

end Graph

end ScopeGraph
