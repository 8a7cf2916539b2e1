/-
  File:      ScopeGraph/Proofs/Views.lean
  Subject:   Parts of a graph, and the changes that leave them alone.

  A view shows a part of every context and a part of every declaration, and of the
  stores of these parts, the limits and the table as much as it likes. Two graphs look
  the same under a view if it shows the same of both (`View.Same`). A change that the
  view does not show can be made anywhere, so a step of an edit leaves a view alone if
  the view overlooks the fields that the step writes.

  * `View.Same.modifyContext`, `View.Same.modifyDeclaration`: changes in place;
  * `View.Same.attach` and the lemmas after it: lists and indices;
  * `View.Same.unlinkChild`: the tree;
  * `Graph.SameNodes`: which nodes there are. Changes in place leave that alone.
-/
import ScopeGraph.Edit.Teardown
import ScopeGraph.Proofs.Handles

namespace ScopeGraph

/-- What every step of a loop respects, the loop does. -/
theorem related_foldl {σ α : Type} {R : σ → σ → Prop} [hR : IsPreorder σ R] {f : σ → α → σ}
    (h : ∀ s a, R s (f s a)) (as : List α) (s : σ) : R s (as.foldl f s) := by
  induction as generalizing s with
  | nil => exact hR.refl s
  | cons a rest ih => exact hR.trans _ _ _ (h s a) (ih (f s a))

/-! ## 1. Names and the order of declarations -/

namespace Locals

theorem ordered_addNames (names : List (Ident × DeclId)) (l : Locals) :
    (l.addNames names).ordered = l.ordered := by
  unfold addNames
  induction names generalizing l with
  | nil => rfl
  | cons n rest ih => exact ih (l.addName n.1 n.2)

theorem ordered_dropNames (names : List (Ident × DeclId)) (l : Locals) :
    (l.dropNames names).ordered = l.ordered := by
  unfold dropNames
  induction names generalizing l with
  | nil => rfl
  | cons n rest ih => exact ih (l.dropName n.1 n.2)

end Locals

/-! ## 2. Views -/

namespace Graph

/-- What is shown of a graph: a part of each context, a part of each declaration, and
    something of the stores of these parts, of the limits and of the table. -/
structure View (β γ δ : Type) where
  context : Context → β
  declaration : Declaration → γ
  shown : Store .context β → Store .declaration γ → Limits → SymbolTable → δ

namespace View

variable {β γ δ : Type}

/-- What a view shows of a graph. -/
def of (V : View β γ δ) (g : Graph) : δ :=
  V.shown (g.contexts.map V.context) (g.declarations.map V.declaration) g.limits g.table

/-- Two graphs look the same under a view. -/
abbrev Same (V : View β γ δ) : Graph → Graph → Prop := SameUnder V.of

/-- The view of a part of all contexts. -/
def ofContexts (v : Context → β) : View β Unit (Store .context β) where
  context := v
  declaration _ := ()
  shown contexts _ _ _ := contexts

/-- The view of a part of every context and a part of every declaration. -/
def ofParts (v : Context → β) (u : Declaration → γ) :
    View β γ ((ContextId → Option β) × (DeclId → Option γ)) where
  context := v
  declaration := u
  shown contexts declarations _ _ := (contexts.get?, declarations.get?)

/-- The view of a whole graph, but of each node only a part. -/
def whole (v : Context → β) (u : Declaration → γ) :
    View β γ (Store .context β × Store .declaration γ × Limits × SymbolTable) where
  context := v
  declaration := u
  shown contexts declarations limits table := (contexts, declarations, limits, table)

namespace Same

variable {V : View β γ δ}

/-- What is made of the parts of a whole graph is the same where these are. -/
theorem of_whole {β₀ γ₀ : Type} {v : Context → β₀} {u : Declaration → γ₀} {g g' : Graph}
    (h : (whole v u).Same g g') (f : β₀ → β) (k : γ₀ → γ)
    (hf : ∀ data, V.context data = f (v data)) (hk : ∀ data, V.declaration data = k (u data)) :
    V.Same g g' := by
  have hcontexts := Store.map_eq_of_map_eq (v := v) f (congrArg Prod.fst h)
  have hdeclarations := Store.map_eq_of_map_eq (v := u) k (congrArg (·.2.1) h)
  have hlimits : g'.limits = g.limits := congrArg (·.2.2.1) h
  have htable : g'.table = g.table := congrArg (·.2.2.2) h
  show V.shown _ _ _ _ = V.shown _ _ _ _
  rw [funext hf, funext hk, hcontexts, hdeclarations, hlimits, htable]

theorem modifyContext_of_some (g : Graph) (c : ContextId) {f : Context → Context}
    (hf : ∀ data, g.context? c = some data → V.context (f data) = V.context data) :
    V.Same g (g.modifyContext c f) := by
  have hstore := Store.map_modify g.contexts c hf
  show V.shown ((g.contexts.modify c f).map V.context) _ _ _ = _
  rw [hstore]
  rfl

theorem modifyContext (g : Graph) (c : ContextId) {f : Context → Context}
    (hf : ∀ data, V.context (f data) = V.context data) : V.Same g (g.modifyContext c f) :=
  modifyContext_of_some g c fun data _ => hf data

theorem modifyDeclaration (g : Graph) (d : DeclId) {f : Declaration → Declaration}
    (hf : ∀ data, V.declaration (f data) = V.declaration data) :
    V.Same g (g.modifyDeclaration d f) := by
  have hstore := Store.map_modify g.declarations d fun data _ => hf data
  show V.shown _ ((g.declarations.modify d f).map V.declaration) _ _ = _
  rw [hstore]
  rfl

theorem map_context? {v : Context → β} {g g' : Graph} (h : (ofContexts v).Same g g')
    (x : ContextId) : (g'.context? x).map v = (g.context? x).map v :=
  Store.get?_of_map_eq h x

section Parts

variable {v : Context → β} {u : Declaration → γ} {g g' : Graph}

theorem of_parts (hcontexts : ∀ x, (g'.context? x).map v = (g.context? x).map v)
    (hdeclarations : ∀ x, (g'.declaration? x).map u = (g.declaration? x).map u) :
    (ofParts v u).Same g g' := by
  refine Prod.ext (funext fun x => ?_) (funext fun x => ?_)
  · exact (Store.get?_map v _ x).trans ((hcontexts x).trans (Store.get?_map v _ x).symm)
  · exact (Store.get?_map u _ x).trans ((hdeclarations x).trans (Store.get?_map u _ x).symm)

/-- What is made of the part of a context that the view shows. -/
theorem context_part (h : (ofParts v u).Same g g') {α : Type} (f : β → α) (x : ContextId) :
    (g'.context? x).map (fun data => f (v data)) = (g.context? x).map fun data => f (v data) := by
  have hx : (g'.contexts.map v).get? x = (g.contexts.map v).get? x :=
    congrFun (congrArg Prod.fst h) x
  have hf := congrArg (Option.map f) hx
  rw [Store.get?_map, Store.get?_map, Option.map_map, Option.map_map] at hf
  exact hf

theorem declaration_part (h : (ofParts v u).Same g g') {α : Type} (f : γ → α) (x : DeclId) :
    (g'.declaration? x).map (fun data => f (u data)) =
      (g.declaration? x).map fun data => f (u data) := by
  have hx : (g'.declarations.map u).get? x = (g.declarations.map u).get? x :=
    congrFun (congrArg Prod.snd h) x
  have hf := congrArg (Option.map f) hx
  rw [Store.get?_map, Store.get?_map, Option.map_map, Option.map_map] at hf
  exact hf

end Parts

/-! ## 3. Lists and indices -/

section Indices

variable (hindex : ∀ (data : Context) (l : Locals), l.ordered = data.locals.ordered →
  V.context { data with locals := l } = V.context data)

include hindex

theorem modifyAll (g : Graph) {f : Locals → Locals} (hf : ∀ l, (f l).ordered = l.ordered)
    (cs : List ContextId) : V.Same g (g.modifyAll f cs) :=
  related_foldl (fun g c => modifyContext g c fun data => hindex data _ (hf data.locals)) cs g

theorem spreadNames (g : Graph) (c : ContextId) (names : List (Ident × DeclId)) :
    V.Same g (g.spreadNames c names) :=
  modifyAll hindex g (Locals.ordered_addNames names) _

theorem recallNames (g : Graph) (c : ContextId) (names : List (Ident × DeclId)) :
    V.Same g (g.recallNames c names) :=
  modifyAll hindex g (Locals.ordered_dropNames names) _

theorem shareWithParent (g : Graph) (c : ContextId) : V.Same g (g.shareWithParent c) := by
  unfold Graph.shareWithParent
  split
  · exact spreadNames hindex g _ _
  · exact .refl g

theorem withdrawFromParent (g : Graph) (c : ContextId) : V.Same g (g.withdrawFromParent c) := by
  unfold Graph.withdrawFromParent
  split
  · exact recallNames hindex g _ _
  · exact .refl g

/-- The tree, under a view that does not show it either. -/
theorem unlinkChild (hparent : ∀ data p, V.context { data with parent := p } = V.context data)
    (hchildren : ∀ data cs, V.context { data with children := cs } = V.context data)
    (g : Graph) (p c : ContextId) : V.Same g (g.unlinkChild p c) := by
  refine ((withdrawFromParent hindex g c).trans (modifyContext _ p fun data => ?_)).trans
    (modifyContext _ c fun data => ?_)
  · exact hchildren data _
  · split
    · exact hparent data none
    · rfl

end Indices

section Lists

variable (hlocals : ∀ (data : Context) (l : Locals),
  V.context { data with locals := l } = V.context data)

include hlocals

theorem modifyLocals (g : Graph) (c : ContextId) (f : Locals → Locals) :
    V.Same g (g.modifyLocals c f) :=
  modifyContext g c fun data => hlocals data _

theorem attach (g : Graph) (c : ContextId) (d : DeclId) : V.Same g (g.attach c d) := by
  unfold Graph.attach
  split
  · exact (modifyLocals hlocals g c _).trans (spreadNames (fun data l _ => hlocals data l) _ c _)
  · exact .refl g

theorem detach (g : Graph) (c : ContextId) (d : DeclId) : V.Same g (g.detach c d) := by
  unfold Graph.detach
  split
  · exact (modifyLocals hlocals g c _).trans (recallNames (fun data l _ => hlocals data l) _ c _)
  · exact .refl g

end Lists

/-! ## 4. Owners -/

theorem clearOwner (howner : ∀ data d, V.context { data with owner := d } = V.context data)
    (g : Graph) (c : ContextId) (d : DeclId) : V.Same g (g.clearOwner c d) := by
  refine modifyContext g c fun data => ?_
  split
  · exact howner data none
  · rfl

theorem clearInternal
    (hinternal : ∀ data c, V.declaration { data with internal := c } = V.declaration data)
    (g : Graph) (d : DeclId) (c : ContextId) : V.Same g (g.clearInternal d c) := by
  refine modifyDeclaration g d fun data => ?_
  split
  · exact hinternal data none
  · rfl

end Same

/-- Which contexts and which declarations there are. -/
def nodes : View Unit Unit (Store .context Unit × Store .declaration Unit) where
  context _ := ()
  declaration _ := ()
  shown contexts declarations _ _ := (contexts, declarations)

end View

/-- No node is new and none is gone. -/
abbrev SameNodes : Graph → Graph → Prop := View.nodes.Same

namespace SameNodes

variable {g g' : Graph}

theorem contexts (h : SameNodes g g') : Store.SameSlots g.contexts g'.contexts :=
  congrArg Prod.fst h

theorem declarations (h : SameNodes g g') : Store.SameSlots g.declarations g'.declarations :=
  congrArg Prod.snd h

theorem exists_context (h : SameNodes g g') {x : ContextId} {data : Context}
    (hx : g.context? x = some data) : ∃ data', g'.context? x = some data' :=
  Option.isSome_iff_exists.mp ((h.contexts.isSome_get? x).trans (congrArg Option.isSome hx))

theorem exists_declaration (h : SameNodes g g') {x : DeclId} {data : Declaration}
    (hx : g.declaration? x = some data) : ∃ data', g'.declaration? x = some data' :=
  Option.isSome_iff_exists.mp ((h.declarations.isSome_get? x).trans (congrArg Option.isSome hx))

theorem attach (g : Graph) (c : ContextId) (d : DeclId) : SameNodes g (g.attach c d) :=
  View.Same.attach (fun _ _ => rfl) g c d

theorem detach (g : Graph) (c : ContextId) (d : DeclId) : SameNodes g (g.detach c d) :=
  View.Same.detach (fun _ _ => rfl) g c d

theorem unlinkChild (g : Graph) (p c : ContextId) : SameNodes g (g.unlinkChild p c) :=
  View.Same.unlinkChild (fun _ _ _ => rfl) (fun _ _ => rfl) (fun _ _ => rfl) g p c

end SameNodes

/-! ## 5. Declarations that stay as they are -/

/-- The view of all declarations. -/
def View.allDeclarations : View Unit Declaration (Store .declaration Declaration) where
  context _ := ()
  declaration data := data
  shown _ declarations _ _ := declarations

theorem View.Same.declarations {g g' : Graph} (h : allDeclarations.Same g g') :
    g'.declarations = g.declarations := by
  have hstore : g'.declarations.map (fun data => data) = g.declarations.map fun data => data := h
  rwa [Store.map_id, Store.map_id] at hstore

variable {g : Graph}

theorem declarations_modifyAll (f : Locals → Locals) (cs : List ContextId) :
    (g.modifyAll f cs).declarations = g.declarations :=
  View.Same.declarations
    (related_foldl (fun g c => View.Same.modifyLocals (fun _ _ => rfl) g c f) cs g)

theorem declarations_attach (c : ContextId) (d : DeclId) :
    (g.attach c d).declarations = g.declarations :=
  View.Same.declarations (.attach (fun _ _ => rfl) g c d)

theorem declarations_detach (c : ContextId) (d : DeclId) :
    (g.detach c d).declarations = g.declarations :=
  View.Same.declarations (.detach (fun _ _ => rfl) g c d)

theorem declarations_shareWithParent (c : ContextId) :
    (g.shareWithParent c).declarations = g.declarations :=
  View.Same.declarations (.shareWithParent (fun _ _ _ => rfl) g c)

theorem declarations_withdrawFromParent (c : ContextId) :
    (g.withdrawFromParent c).declarations = g.declarations :=
  View.Same.declarations (.withdrawFromParent (fun _ _ _ => rfl) g c)

end Graph

end ScopeGraph
