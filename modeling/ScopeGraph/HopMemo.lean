/-
  File:      ScopeGraph/HopMemo.lean
  Subject:   What is remembered about which file imports which.

  For a file and a target the memo may hold the next file on a way from the
  one to the other (`some (some hop)`), or that there is no way
  (`some none`). What is not in the memo has to be searched.
-/
import ScopeGraph.Handle

namespace ScopeGraph

/-- A remembered first hop from a source to a target, or that there is none. -/
structure HopEntry where
  source : TopId
  target : TopId
  hop : Option TopId
  deriving DecidableEq, Repr, Inhabited

/-- All remembered hops, the latest first. -/
structure HopMemo where
  entries : List HopEntry := []
  deriving DecidableEq, Repr, Inhabited

namespace HopMemo

/-- What is remembered of a source and a target. -/
def find? (m : HopMemo) (source target : TopId) : Option (Option TopId) :=
  (m.entries.find? fun e => e.source = source ∧ e.target = target).map (·.hop)

/-- The memo with one more answer, which counts before older ones. -/
def store (m : HopMemo) (source target : TopId) (hop : Option TopId) : HopMemo :=
  ⟨⟨source, target, hop⟩ :: m.entries⟩

/-- The memo without the answers for some sources. -/
def forgetSources (m : HopMemo) (sources : List TopId) : HopMemo :=
  ⟨m.entries.filter fun e => e.source ∉ sources⟩

/-- The memo without every answer that has to do with a top. -/
def forgetTop (m : HopMemo) (t : TopId) : HopMemo :=
  ⟨m.entries.filter fun e => e.source ≠ t ∧ e.target ≠ t ∧ e.hop ≠ some t⟩

end HopMemo

end ScopeGraph
