/-
  File:      ScopeGraph/Edit/Contexts.lean
  Subject:   Making contexts, nesting them, changing what they are.
-/
import ScopeGraph.Edit.Index
import ScopeGraph.Edit.Registration

namespace ScopeGraph

/-! ## 1. The tree -/

namespace Graph

variable (g : Graph)

/-- A child taken out of a parent's list, with the names it shares. -/
def unlinkChild (p c : ContextId) : Graph :=
  let g := g.withdrawFromParent c
  let g := g.modifyContext p fun data =>
    { data with children := data.children.filter (· ≠ c) }
  g.modifyContext c fun data =>
    if data.parent = some p then { data with parent := none } else data

end Graph

namespace Edit

/-- A child put into a parent's list by where it starts, with the names it
    shares. -/
def linkChild (p c : ContextId) : Edit Unit := do
  let g ← graph
  changeContext p fun data => { data with
    children := insertByStart g.startOfContext c (g.startOfContext c) data.children }
  changeContext c ({ · with parent := some p })
  updateGraph (·.shareWithParent c)

/-- A context put below a parent, away from the one it had. Answers whether
    it was elsewhere before. A context cannot be put below itself. -/
def addChild (p c : ContextId) : Edit Bool := do
  let parent ← needContext p
  let child ← needContext c
  if child.anonymous then throw (.anonymousChild c)
  if child.parent = some p ∧ c ∈ parent.children then return false
  if (← graph).isAtOrAbove c p then
    warn .childAboveParent
    return false
  if !parent.range.encloses child.range then
    warn .childOutsideParent
  if let some previous := child.parent then
    updateGraph (·.unlinkChild previous c)
  linkChild p c
  update (·.registerSubtree c parent.registered)
  return true

/-- A context taken away from a parent. Answers whether it was below it. -/
def removeChild (p c : ContextId) : Edit Bool := do
  let parent ← needContext p
  if c ∉ parent.children then return false
  updateGraph (·.unlinkChild p c)
  update fun w => if w.graph.hasContext c then w.registerSubtree c false else w
  return true

/-! ## 2. New contexts -/

/-- The top context of a new file. -/
def createTop (file : FileId) (range : Span) : Edit TopId := do
  let c ← newContext { range := range, kind := .global, file := some (.new file) }
  return ⟨c⟩

/-- A new context below a parent. -/
def createContext (p : ContextId) (range : Span) : Edit ContextId := do
  let _ ← needContext p
  let c ← newContext { range := range }
  let _ ← addChild p c
  return c

/-- A new anonymous context, which sees a parent and is not below it. -/
def createAnonymous (p : ContextId) (range : Span) : Edit ContextId := do
  let _ ← needContext p
  newContext { range := range, parent := some p, anonymous := true }

/-! ## 3. Kind, scope name, propagation -/

/-- A context of another kind. -/
def setKind (c : ContextId) (kind : ContextKind) : Edit Unit := do
  let data ← needContext c
  if data.kind = kind then return
  updateContext c ({ · with kind := kind })
  update (·.syncContext c)

/-- A context with another scope name; all that is below it gets another
    path if the segments differ. -/
def setScopeName (c : ContextId) (name : QualName) : Edit Unit := do
  let data ← needContext c
  updateContext c ({ · with scopeName := name })
  if !data.scopeName.sameAs name then
    update (·.syncSubtree c)

/-- Whether the parent sees the names of a context. -/
def setPropagates (c : ContextId) (on : Bool) : Edit Unit := do
  let data ← needContext c
  if data.propagates = on then return
  if on then
    changeContext c ({ · with propagates := true })
    updateGraph (·.shareWithParent c)
  else
    updateGraph (·.withdrawFromParent c)
    changeContext c ({ · with propagates := false })

end Edit

end ScopeGraph
