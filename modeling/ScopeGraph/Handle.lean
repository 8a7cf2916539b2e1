/-
  File:      ScopeGraph/Handle.lean
  Subject:   Handles of contexts, declarations and files.

  A handle names a slot of a node store and the generation of the slot at
  which the node was put there. When a node is freed its slot's generation
  moves on, so an old handle never names the node that takes the slot later.
-/

namespace ScopeGraph

/-- The two sorts of nodes of the graph. -/
inductive NodeSort where
  | context
  | declaration
  deriving DecidableEq, Repr, Inhabited

/-- The slot of a node and the generation of the slot. -/
structure Handle (sort : NodeSort) where
  slot : Nat
  generation : UInt32
  deriving DecidableEq, Repr, Inhabited

instance {sort : NodeSort} : LawfulBEq (Handle sort) := inferInstance

/-- The handle of a context. -/
abbrev ContextId := Handle .context

/-- The handle of a declaration. -/
abbrev DeclId := Handle .declaration

/-- The handle of a top context: the outermost context of a file. -/
structure TopId where
  context : ContextId
  deriving DecidableEq, Repr, Inhabited

/-- The word for the handles of a sort. -/
def NodeSort.handleWord : NodeSort → String
  | .context => "ContextId"
  | .declaration => "DeclId"

/-- A handle as messages show it: slot, then generation. -/
def Handle.render {sort : NodeSort} (h : Handle sort) : String :=
  sort.handleWord ++ s!"({h.slot}v{h.generation.toNat})"

/-- A top's handle as messages show it. -/
def TopId.render (t : TopId) : String := "Top(" ++ t.context.render ++ ")"

/-- A node of either sort. -/
inductive Node where
  | context (c : ContextId)
  | declaration (d : DeclId)
  deriving DecidableEq, Repr, Inhabited

end ScopeGraph
