/-
  File:      ScopeGraph/Edit/Imports.lean
  Subject:   Imports between contexts.

  Both ends of an import know of it. When the imports of a file change, all
  that is remembered of the file, and of every file that imports it, is
  forgotten.
-/
import ScopeGraph.Reach
import ScopeGraph.Workspace

namespace ScopeGraph

/-- The workspace with everything forgotten that may depend on the imports of
    a context. -/
def Workspace.forgetImportsOf (w : Workspace) (c : ContextId) : Workspace :=
  { w with memo := w.memo.forgetSources ((w.graph.importersOf c).filterMap w.graph.top?) }

namespace Edit

/-- One context imports another. Answers whether the import is new; one that
    is there already only gets another position. -/
def addImport (c target : ContextId) (position : Option Position) : Edit Bool := do
  let _ ← needContext c
  let _ ← needContext target
  if c = target then
    warn .selfImport
    return false
  let data ← needContext c
  if data.importsDirectly target then
    updateContext c fun data => { data with
      imports := data.imports.modify (data.imports.findIdx (·.context = target))
        ({ · with position := position }) }
    return false
  updateContext c fun data => { data with imports := data.imports ++ [⟨target, position⟩] }
  changeContext target fun data => { data with importers := data.importers ++ [c] }
  if data.isTop then
    if ((← graph).top? target).isNone then
      warn .nonTopImported
    update (·.forgetImportsOf c)
  return true

/-- An import taken away. Answers whether there was one. -/
def removeImport (c target : ContextId) : Edit Bool := do
  let data ← needContext c
  if !data.importsDirectly target then return false
  updateContext c fun data => { data with
    imports := data.imports.eraseP (·.context = target) }
  updateContext target fun data => { data with
    importers := data.importers.filter (· ≠ c) }
  if data.isTop then
    update (·.forgetImportsOf c)
  return true

/-- All imports from a list of targets taken away; how many there were. -/
def removeImports (c : ContextId) : List ContextId → Edit Nat
  | [] => return 0
  | target :: rest => do
    let removed ← removeImport c target
    return removed.toNat + (← removeImports c rest)

/-- All imports of a context taken away; how many there were. -/
def clearImports (c : ContextId) : Edit Nat := do
  let data ← needContext c
  removeImports c (data.imports.map (·.context))

end Edit

end ScopeGraph
