/-
  File:      ScopeGraph/Edit/Teardown.lean
  Subject:   Taking contexts and declarations out of the graph.

  A context goes with all contexts below it and with all their declarations.
  Whatever refers to a node that goes is cleared first: owners, imports in
  both directions, names that were shared, table entries, remembered hops.
-/
import ScopeGraph.Edit.Contexts
import ScopeGraph.Edit.Declarations
import ScopeGraph.Edit.Imports
import ScopeGraph.Edit.Uses

namespace ScopeGraph

namespace Edit

/-! ## 1. Declarations -/

/-- A declaration taken out of the graph. -/
def deleteDeclaration (d : DeclId) : Edit Unit := do
  let data ← needDeclaration d
  let top := data.context.bind (← graph).topOf?
  if let some c := data.context then
    updateGraph (·.detach c d)
  let key := (← needDeclaration d).key
  updateDeclaration d ({ · with key := none })
  if let some key := key then
    update (·.changeTable (.removeDeclaration key d))
  if let some c := data.internal then
    updateGraph (·.clearOwner c d)
  if let some t := top then
    updateFile t (·.forget d)
  updateGraph fun g => { g with declarations := g.declarations.erase d }

/-- All declarations of a context taken out of it, and which they were. -/
def clearDeclarations (c : ContextId) : Edit (List DeclId) := do
  let ds := (← graph).localDeclarations c
  forEach (fun d => do let _ ← removeDeclaration c d) ds
  return ds

/-! ## 2. Contexts -/

/-- The first part of a teardown: nothing refers to the context any more by
    owner, table entry or import. -/
def closeContext (c : ContextId) : Edit Unit := do
  let data ← needContext c
  updateContext c fun data => { data with
    file := data.file.map ({ · with deleting := true })
    owner := none
    key := none
    registered := false }
  if let some d := data.owner then
    updateGraph (·.clearInternal d c)
  if let some key := data.key then
    update (·.changeTable (.removeContext key c))
  let data ← needContext c
  forEach (fun i => do
    if (← graph).hasContext i then
      let _ ← removeImport i c) data.importers
  let _ ← clearImports c

/-- The last part of a teardown: the context's own declarations, its place
    below its parent, and the context itself go. -/
def freeContext (c : ContextId) : Edit Unit := do
  deleteUses c
  forEach (fun d => do
    if (← graph).hasDeclaration d then
      deleteDeclaration d) ((← graph).localDeclarations c)
  let data ← needContext c
  if let some p := data.parent then
    if !data.anonymous then
      updateGraph (·.unlinkChild p c)
  update fun w => if data.isTop then { w with memo := w.memo.forgetTop ⟨c⟩ } else w
  updateGraph fun g => { g with contexts := g.contexts.erase c }

/-- A context and what is at most `n` levels below it taken out of the
    graph, children before their parent. -/
def deleteContextWithin : Nat → ContextId → Edit Unit
  | 0, c => throw (.staleContext c)
  | n + 1, c => do
    closeContext c
    let data ← needContext c
    forEach (fun child => do
      if (← graph).hasContext child then
        deleteContextWithin n child) data.children
    freeContext c

/-- A context and all below it taken out of the graph. -/
def deleteContext (c : ContextId) : Edit Unit := do
  deleteContextWithin (← graph).chainBound c

/-! ## 3. Cleaning -/

/-- The own declarations and the children of a context that are not to be
    kept taken out of the graph. -/
def clean (c : ContextId) (keep : List Node) : Edit Unit := do
  forEach (fun d => do
    if .declaration d ∉ keep then
      deleteDeclaration d) ((← graph).localDeclarations c)
  let data ← needContext c
  forEach (fun child => do
    if .context child ∉ keep then
      deleteContext child) data.children

end Edit

end ScopeGraph
