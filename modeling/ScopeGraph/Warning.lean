/-
  File:      ScopeGraph/Warning.lean
  Subject:   What a walk over the graph may complain about.

  Nothing in the graph is trusted to be there: handles may be stale, aliases
  lost, imports circular. A walk that meets such a thing goes on without it
  and says so.
-/

namespace ScopeGraph

/-- What a walk over the graph may complain about. -/
inductive Warning where
  | staleDeclaration
  | lostAlias
  | aliasChainTooLong
  | childAboveParent
  | childOutsideParent
  | selfImport
  | nonTopImported
  | importedGone
  | importsTooDeep
  | importsInconsistent
  | notAnAlias
  | notANamespaceAlias
  | searchFromStale
  | staleContextReached
  | staleContextInTable
  | expansionTooDeep
  | importWithoutTarget
  | aliasWithoutTarget
  | readTimedOut
  | writeTimedOut
  deriving DecidableEq, Repr, Inhabited

/-- The text of a warning. -/
def Warning.message : Warning → String
  | .staleDeclaration => "stale declaration in local index"
  | .lostAlias => "lost aliased declaration"
  | .aliasChainTooLong => "alias chain too long or cyclic"
  | .childAboveParent => "child context would become its own ancestor"
  | .childOutsideParent => "child context range outside its parent's range"
  | .selfImport => "tried to import self"
  | .nonTopImported => "non-top context imported into top context"
  | .importedGone => "imported context was invalidated"
  | .importsTooDeep => "import structure too deep"
  | .importsInconsistent => "inconsistent import structure"
  | .notAnAlias => "aliased declaration set on a non-alias"
  | .notANamespaceAlias => "import identifier set on a non-namespace-alias"
  | .searchFromStale => "search from stale context"
  | .staleContextReached => "stale context reached during search"
  | .staleContextInTable => "stale context in symbol table"
  | .expansionTooDeep => "namespace alias expansion too deep"
  | .importWithoutTarget => "namespace import without target"
  | .aliasWithoutTarget => "namespace alias without target"
  | .readTimedOut => "timed out waiting for workspace read lock"
  | .writeTimedOut => "timed out waiting for workspace write lock"

end ScopeGraph
