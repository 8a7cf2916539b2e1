/-
  File:      ScopeGraph/Workspace.lean
  Subject:   The graph at work: its memo, its journal, and edits that can fail.

  A workspace is the graph together with the memo of import hops and a
  journal: the warnings given and the changes made to the symbol table, in
  order. An edit runs on a workspace and may fail because of a handle; a
  failed edit keeps the workspace it had reached when it failed.
-/
import ScopeGraph.Graph
import ScopeGraph.Query

namespace ScopeGraph

/-! ## 1. Errors -/

/-- Why an edit fails. -/
inductive EditError where
  | staleContext (c : ContextId)
  | staleDeclaration (d : DeclId)
  | notATop (c : ContextId)
  | anonymousChild (c : ContextId)
  deriving DecidableEq, Repr

/-- The text of an error. -/
def EditError.message : EditError → String
  | .staleContext c => "stale context handle: " ++ c.render
  | .staleDeclaration d => "stale declaration handle: " ++ d.render
  | .notATop c => c.render ++ " is not a top context"
  | .anonymousChild c => c.render ++ " is anonymous and cannot be added to a child list"

/-! ## 2. The workspace -/

/-- A change of the symbol table, and whether it found what it removes. -/
structure TableEvent where
  change : TableChange
  done : Bool
  deriving DecidableEq, Repr

/-- The graph, the hop memo and the journal. -/
structure Workspace where
  graph : Graph := {}
  memo : HopMemo := {}
  warnings : List Warning := []
  events : List TableEvent := []
  deriving DecidableEq, Repr

namespace Workspace

/-- A workspace with nothing in it. -/
def empty (limits : Limits) : Workspace := { graph := { limits := limits } }

/-- The workspace with its graph changed. -/
def onGraph (w : Workspace) (f : Graph → Graph) : Workspace := { w with graph := f w.graph }

/-- The workspace with one more warning in its journal. -/
def warn (w : Workspace) (x : Warning) : Workspace :=
  { w with warnings := w.warnings ++ [x] }

/-- The workspace after a change of the symbol table, which its journal
    holds. -/
def changeTable (w : Workspace) (change : TableChange) : Workspace :=
  { w with
    graph := { w.graph with table := w.graph.table.apply change }
    events := w.events ++ [⟨change, w.graph.table.admits change⟩] }

/-- The workspace with an empty journal. -/
def clearJournal (w : Workspace) : Workspace := { w with warnings := [], events := [] }

/-- The answer to a question, and the workspace after it. -/
def ask {α : Type} (w : Workspace) (q : Graph → Query α) : α × Workspace :=
  let r := q w.graph w.memo
  (r.value.1, { w with memo := r.value.2, warnings := w.warnings ++ r.warnings })

end Workspace

/-! ## 3. Edits -/

/-- A change of a workspace that may fail and gives a value otherwise. -/
abbrev Edit := EStateM EditError Workspace

namespace Edit

/-- The context of a handle; fails if the handle is stale. -/
def needContext (c : ContextId) : Edit Context := fun w =>
  match w.graph.context? c with
  | some data => .ok data w
  | none => .error (.staleContext c) w

/-- The declaration of a handle; fails if the handle is stale. -/
def needDeclaration (d : DeclId) : Edit Declaration := fun w =>
  match w.graph.declaration? d with
  | some data => .ok data w
  | none => .error (.staleDeclaration d) w

/-- The file record of a top; fails if the handle is stale or names a
    context that is no top. -/
def needFile (t : TopId) : Edit FileRecord := do
  let data ← needContext t.context
  match data.file with
  | some r => pure r
  | none => throw (.notATop t.context)

/-- The graph as it is now. -/
def graph : Edit Graph := fun w => .ok w.graph w

/-- A change that cannot fail. -/
def update (f : Workspace → Workspace) : Edit Unit := fun w => .ok () (f w)

/-- A change of the graph that cannot fail. -/
def updateGraph (f : Graph → Graph) : Edit Unit := update (·.onGraph f)

/-- A change of one context. -/
def updateContext (c : ContextId) (f : Context → Context) : Edit Unit :=
  updateGraph (·.modifyContext c f)

/-- A change of one declaration. -/
def updateDeclaration (d : DeclId) (f : Declaration → Declaration) : Edit Unit :=
  updateGraph (·.modifyDeclaration d f)

/-- A change of one context that is looked up for it; fails if the handle is
    stale. -/
def changeContext (c : ContextId) (f : Context → Context) : Edit Unit := do
  let _ ← needContext c
  updateContext c f

/-- A change of one declaration that is looked up for it; fails if the handle is
    stale. -/
def changeDeclaration (d : DeclId) (f : Declaration → Declaration) : Edit Unit := do
  let _ ← needDeclaration d
  updateDeclaration d f

/-- A change of the file record of a top. -/
def updateFile (t : TopId) (f : FileRecord → FileRecord) : Edit Unit :=
  updateContext t.context fun data => { data with file := data.file.map f }

/-- Nothing but a warning. -/
def warn (x : Warning) : Edit Unit := update (·.warn x)

/-- A node more in the graph. -/
def newContext (data : Context) : Edit ContextId := fun w =>
  let r := w.graph.contexts.insert data
  .ok r.1 (w.onGraph ({ · with contexts := r.2 }))

/-- A declaration more in the graph, in no context yet. -/
def newDeclaration (data : Declaration) : Edit DeclId := fun w =>
  let r := w.graph.declarations.insert data
  .ok r.1 (w.onGraph ({ · with declarations := r.2 }))

/-- The same edit for each item of a list, until one fails. -/
def forEach {α : Type} (f : α → Edit Unit) : List α → Edit Unit
  | [] => pure ()
  | a :: rest => do
    f a
    forEach f rest

end Edit

end ScopeGraph
