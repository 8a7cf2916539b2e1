/-
  File:      ScopeGraph/Alias.lean
  Subject:   Following aliases to the declaration they stand for.

  An alias stands for another declaration, which may be an alias again. The
  chain is followed until it ends at a declaration that is no alias; it fails
  if a declaration on it is gone or lost, or if it has more links than the
  graph's limit, as every circle has.
-/
import ScopeGraph.Graph
import ScopeGraph.Noted

namespace ScopeGraph

namespace Graph

variable (g : Graph)

/-- The end of an alias chain of at most `links` links, or what is wrong
    with the chain. -/
def followAlias : Nat → DeclId → Except Warning DeclId
  | links, d =>
    match g.declaration? d with
    | none => .error .staleDeclaration
    | some data =>
      match data.kind with
      | .alias none => .error .lostAlias
      | .alias (some target) =>
        match links with
        | 0 => .error .aliasChainTooLong
        | n + 1 => followAlias n target
      | _ => .ok d

/-- The declaration that an alias stands for; one that is no alias stands
    for itself. -/
def resolveAlias (d : DeclId) : Except Warning DeclId := g.followAlias g.limits.aliasDepth d

/-- The declaration of a handle, or the warning that it is gone. -/
def liveDeclaration (d : DeclId) : Except Warning Declaration :=
  match g.declaration? d with
  | some data => .ok data
  | none => .error .staleDeclaration

end Graph

end ScopeGraph
