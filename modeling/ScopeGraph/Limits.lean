/-
  File:      ScopeGraph/Limits.lean
  Subject:   How deep the searches go.

  Imports and aliases may run in circles; every walk along them is cut at a
  depth that the graph is configured with.
-/

namespace ScopeGraph

/-- The depth at which walks along imports and along aliases stop. -/
structure Limits where
  importDepth : Nat := 100
  aliasDepth : Nat := 32
  deriving DecidableEq, Repr, Inhabited

/-- The distance that separates, in a completion list, what a namespace or a
    file declares from what the scopes inside it declare. -/
def namespaceDistance : Nat := 1000

end ScopeGraph
