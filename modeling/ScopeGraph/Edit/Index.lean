/-
  File:      ScopeGraph/Edit/Index.lean
  Subject:   Keeping the name indices in step with the declarations.

  A declaration stands in the ordered list of its context, and its name in
  the index of its context and of every context the names are propagated to
  (`Graph.propagationChain`). A context that propagates shares all names of
  its own index with its parent.
-/
import ScopeGraph.Graph

namespace ScopeGraph

namespace Graph

variable (g : Graph)

/-- The graph with the local declarations of a context changed. -/
def modifyLocals (c : ContextId) (f : Locals → Locals) : Graph :=
  g.modifyContext c fun data => { data with locals := f data.locals }

/-- The graph with the indices of several contexts changed. -/
def modifyAll (f : Locals → Locals) (cs : List ContextId) : Graph :=
  cs.foldl (fun g c => g.modifyLocals c f) g

/-- Names added to the index of a context and to all that see its names. -/
def spreadNames (c : ContextId) (names : List (Ident × DeclId)) : Graph :=
  g.modifyAll (·.addNames names) (g.propagationChain c)

/-- Names taken from the index of a context and from all that see its
    names. -/
def recallNames (c : ContextId) (names : List (Ident × DeclId)) : Graph :=
  g.modifyAll (·.dropNames names) (g.propagationChain c)

/-- A declaration entered into a context's list and indices. -/
def attach (c : ContextId) (d : DeclId) : Graph :=
  match g.declaration? d with
  | some data =>
    (g.modifyLocals c fun l => l.place g.startOfDeclaration d data.range.start).spreadNames c
      [(data.name, d)]
  | none => g

/-- A declaration taken out of a context's list and indices. -/
def detach (c : ContextId) (d : DeclId) : Graph :=
  match g.declaration? d with
  | some data => (g.modifyLocals c (·.displace d)).recallNames c [(data.name, d)]
  | none => g

/-- The names a context shares with its parent, and the parent: nothing if it
    does not propagate or has no parent. -/
def sharedNames (c : ContextId) : Option (ContextId × List (Ident × DeclId)) :=
  match g.context? c with
  | some data =>
    if data.propagates then data.parent.map fun p => (p, data.locals.index.pairs) else none
  | none => none

/-- The names of a context given to its parent. -/
def shareWithParent (c : ContextId) : Graph :=
  match g.sharedNames c with
  | some (p, names) => g.spreadNames p names
  | none => g

/-- The names of a context taken back from its parent. -/
def withdrawFromParent (c : ContextId) : Graph :=
  match g.sharedNames c with
  | some (p, names) => g.recallNames p names
  | none => g

end Graph

end ScopeGraph
