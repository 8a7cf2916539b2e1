/-
  File:      ScopeGraph/Edit/Registration.lean
  Subject:   Keeping the symbol table in step with the graph.

  Every node remembers the path under which the table holds it. After an
  edit the path it should be held under is computed anew
  (`Graph.contextKey?`, `Graph.declarationKey?`), and where the two differ
  the table is changed: first the old entry goes, then the new one comes.
-/
import ScopeGraph.Workspace

namespace ScopeGraph

namespace Workspace

variable (w : Workspace)

/-! ## 1. One node -/

/-- The changes that move a node from one key to another. -/
def keyMoves (remove add : Path → TableChange) (old new : Option Path) : List TableChange :=
  (old.map remove).toList ++ (new.map add).toList

/-- Several changes of the table, in order. -/
def changeTableBy (changes : List TableChange) : Workspace :=
  changes.foldl changeTable w

/-- A declaration entered under the path it belongs to. -/
def syncDeclaration (d : DeclId) : Workspace :=
  match w.graph.declaration? d with
  | some data =>
    let key := w.graph.declarationKey? d
    if data.key = key then w
    else
      (w.onGraph (·.modifyDeclaration d ({ · with key := key }))).changeTableBy
        (keyMoves (.removeDeclaration · d) (.addDeclaration · d) data.key key)
  | none => w

/-- A context entered under the path it belongs to. -/
def syncContextKey (c : ContextId) : Workspace :=
  match w.graph.context? c with
  | some data =>
    let key := w.graph.contextKey? c
    if data.key = key then w
    else
      (w.onGraph (·.modifyContext c ({ · with key := key }))).changeTableBy
        (keyMoves (.removeContext · c) (.addContext · c) data.key key)
  | none => w

/-! ## 2. Contexts with their declarations -/

/-- A context and its own declarations entered where they belong. -/
def syncContext (c : ContextId) : Workspace :=
  (w.graph.localDeclarations c).foldl syncDeclaration (w.syncContextKey c)

/-- A context and all below it entered where they belong. -/
def syncSubtree (c : ContextId) : Workspace :=
  (w.graph.subtreeBackwards c).foldl syncContext w

/-- All contexts of a subtree marked as registered or not; an anonymous
    context never is. -/
def markSubtree (c : ContextId) (registered : Bool) : Workspace :=
  w.onGraph fun g => (g.subtree c).foldl (fun g c => g.modifyContext c fun data =>
    { data with registered := registered && !data.anonymous }) g

/-- A subtree entered into the table or taken out of it. -/
def registerSubtree (c : ContextId) (registered : Bool) : Workspace :=
  (w.markSubtree c registered).syncSubtree c

end Workspace

/-! ## 3. Files -/

namespace Edit

/-- A file entered into the symbol table, with all it holds. -/
def register (t : TopId) : Edit Unit := do
  let _ ← needFile t
  update (·.registerSubtree t.context true)

/-- A file taken out of the symbol table, with all it holds. -/
def unregister (t : TopId) : Edit Unit := do
  let _ ← needFile t
  update (·.registerSubtree t.context false)

end Edit

end ScopeGraph
