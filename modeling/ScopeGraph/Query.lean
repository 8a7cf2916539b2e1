/-
  File:      ScopeGraph/Query.lean
  Subject:   Questions to the graph that remember hops and give warnings.

  A question leaves the graph as it is. It may consult and extend the memo
  of import hops, and it may give warnings.
-/
import ScopeGraph.HopMemo
import ScopeGraph.Noted

namespace ScopeGraph

/-- An answer that depends on the hop memo and may extend it. -/
abbrev Query := StateT HopMemo Noted

namespace Query

/-- Nothing but a warning. -/
def warn (w : Warning) : Query Unit := fun memo => ⟨((), memo), [w]⟩

/-- What the memo holds on a source and a target. -/
def remembered (source target : TopId) : Query (Option (Option TopId)) :=
  fun memo => ⟨(memo.find? source target, memo), []⟩

/-- One more answer for the memo. -/
def remember (source target : TopId) (hop : Option TopId) : Query Unit :=
  fun memo => ⟨((), memo.store source target hop), []⟩

/-- The answer alone, for a memo. -/
def answer {α : Type} (q : Query α) (memo : HopMemo) : α := (q memo).value.1

/-- The memo that a question leaves. -/
def memoAfter {α : Type} (q : Query α) (memo : HopMemo) : HopMemo := (q memo).value.2

/-- The warnings of a question. -/
def warningsOf {α : Type} (q : Query α) (memo : HopMemo) : List Warning := (q memo).warnings

end Query

end ScopeGraph
