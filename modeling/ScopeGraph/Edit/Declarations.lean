/-
  File:      ScopeGraph/Edit/Declarations.lean
  Subject:   Making and changing declarations.
-/
import ScopeGraph.Edit.Index
import ScopeGraph.Edit.Registration

namespace ScopeGraph

namespace Graph

/-- A context without an owner, if the owner is this declaration. -/
def clearOwner (g : Graph) (c : ContextId) (d : DeclId) : Graph :=
  g.modifyContext c fun data => if data.owner = some d then { data with owner := none } else data

/-- A declaration that opens no context, if it opens this one. -/
def clearInternal (g : Graph) (d : DeclId) (c : ContextId) : Graph :=
  g.modifyDeclaration d fun data =>
    if data.internal = some c then { data with internal := none } else data

end Graph

namespace Edit

/-! ## 1. Declarations and their contexts -/

/-- A declaration put into a context, out of the one it was in. Answers
    whether it was elsewhere before. -/
def addDeclaration (c : ContextId) (d : DeclId) : Edit Bool := do
  let _ ← needContext c
  let data ← needDeclaration d
  if data.context = some c then return false
  if let some previous := data.context then
    updateGraph (·.detach previous d)
  updateGraph (·.attach c d)
  changeDeclaration d ({ · with context := some c })
  update (·.syncDeclaration d)
  return true

/-- A declaration taken out of a context. Answers whether it was in it. -/
def removeDeclaration (c : ContextId) (d : DeclId) : Edit Bool := do
  let _ ← needContext c
  let data ← needDeclaration d
  if data.context ≠ some c then return false
  updateGraph (·.detach c d)
  changeDeclaration d ({ · with context := none })
  update (·.syncDeclaration d)
  return true

/-- A new declaration in a context. -/
def declare (c : ContextId) (name : Ident) (range : Span) (kind : DeclKind) : Edit DeclId := do
  let _ ← needContext c
  let d ← newDeclaration { name := name, range := range, kind := kind }
  let _ ← addDeclaration c d
  return d

/-- A declaration put into a context, or out of the one it is in. -/
def setDeclarationContext (d : DeclId) : Option ContextId → Edit Unit
  | some c => do
    let _ ← addDeclaration c d
  | none => do
    let data ← needDeclaration d
    if let some c := data.context then
      let _ ← removeDeclaration c d

/-! ## 2. Names, places and types -/

/-- A declaration under another name, in all indices that show it. -/
def rename (d : DeclId) (name : Ident) : Edit Unit := do
  let data ← needDeclaration d
  if data.name = name then return
  if let some c := data.context then
    updateGraph fun g => (g.recallNames c [(data.name, d)]).spreadNames c [(name, d)]
  updateDeclaration d ({ · with name := name })
  update (·.syncDeclaration d)

/-- A declaration at another place; if it starts elsewhere, its place in the
    order of its context changes too. -/
def setRange (d : DeclId) (range : Span) : Edit Unit := do
  let data ← needDeclaration d
  if data.range = range then return
  updateDeclaration d ({ · with range := range })
  if data.range.start ≠ range.start then
    if let some c := data.context then
      updateGraph fun g => g.modifyLocals c fun l =>
        if d ∈ l.ordered then (l.displace d).place g.startOfDeclaration d range.start else l

/-- A declaration of another type. -/
def setType (d : DeclId) (type : Option TypeId) : Edit Unit := do
  let _ ← needDeclaration d
  updateDeclaration d ({ · with type := type })

/-! ## 3. Declarations and the contexts they open -/

/-- A declaration made the one that opens a context, in place of the one that
    did. -/
def takeContext (d : DeclId) (c : ContextId) : Edit Unit := do
  let data ← needContext c
  if let some displaced := data.owner then
    if displaced ≠ d then
      updateGraph (·.clearInternal displaced c)
  changeContext c ({ · with owner := some d })

/-- A declaration linked to the context it opens, away from the one it opened. A
    context is opened by at most one declaration and a declaration opens at most
    one context: a new link replaces the old ones of both ends. -/
def linkInternal (d : DeclId) (previous internal : Option ContextId) : Edit Unit := do
  if let some p := previous then
    updateGraph (·.clearOwner p d)
  if let some c := internal then
    takeContext d c
  changeDeclaration d ({ · with internal := internal })

/-- The context that a declaration opens, set or cleared. -/
def setInternal (d : DeclId) (internal : Option ContextId) : Edit Unit := do
  let data ← needDeclaration d
  if let some c := internal then
    let _ ← needContext c
  if data.internal = internal then return
  linkInternal d data.internal internal

/-- The declaration that opens a context, set or cleared. -/
def setOwner (c : ContextId) : Option DeclId → Edit Unit
  | some d => setInternal d (some c)
  | none => do
    let data ← needContext c
    match data.owner with
    | some d =>
      if (← graph).hasDeclaration d then setInternal d none
      else changeContext c ({ · with owner := none })
    | none => changeContext c ({ · with owner := none })

/-! ## 4. Aliases -/

/-- What an alias stands for, set or lost. Answers whether the declaration is
    an alias. -/
def setAliased (d : DeclId) (target : Option DeclId) : Edit Bool := do
  let data ← needDeclaration d
  match data.kind with
  | .alias _ => do
    updateDeclaration d ({ · with kind := .alias target })
    return true
  | _ => do
    warn .notAnAlias
    return false

/-- The namespace that a namespace alias stands for. Answers whether the
    declaration is one. -/
def setNamespaceTarget (d : DeclId) (target : QualName) : Edit Bool := do
  let data ← needDeclaration d
  match data.kind with
  | .namespaceAlias _ => do
    updateDeclaration d ({ · with kind := .namespaceAlias target })
    return true
  | _ => do
    warn .notANamespaceAlias
    return false

end Edit

end ScopeGraph
