/-
  File:      ScopeGraph/Proofs/Registry.lean
  Subject:   What holds of tree and symbol table after every edit, and the edits
             that have nothing to do with either.

  * `Graph.Consistent`: tree, declarations and symbol table know of one another. It
    holds also in the middle of an edit;
  * `Graph.Orderly`: moreover tops are below nothing, registration is passed on
    from parent to child, and the table holds every node where it should. It holds
    after every edit that puts no top below another context;
  * `Workspace.Upholds`: an edit keeps the graph orderly and makes no context. An
    edit that leaves outline and table as they are does so (`SameRegistry`);
  * `Workspace.Beside`: the edits of owners, imports, uses, types and files change
    nothing that tree, declarations and table depend on.
-/
import ScopeGraph.Proofs.TableEntries

namespace ScopeGraph

/-! ## 1. What holds after every edit -/

namespace Graph

/-- Tree, declarations and symbol table know of one another. -/
structure Consistent (g : Graph) : Prop where
  tree : g.outline.Tree
  holds : g.outline.Holds
  entered : g.Entered

/-- **Tree, registration, declarations and symbol table are in order.** -/
structure Orderly (g : Graph) : Prop extends Consistent g where
  rooted : g.outline.Rooted
  flagged : g.outline.Flagged
  current : g.Current

section Live

variable {g : Graph} {c p x : ContextId} {d : DeclId}

theorem hasContext_iff {x : ContextId} : g.hasContext x = true ↔ ∃ data, g.context? x = some data :=
  Option.isSome_iff_exists

theorem hasDeclaration_iff {d : DeclId} :
    g.hasDeclaration d = true ↔ ∃ data, g.declaration? d = some data :=
  Option.isSome_iff_exists

theorem hasContext_iff_outline {x : ContextId} :
    g.hasContext x = true ↔ ∃ f, g.outline.context x = some f := by
  rw [hasContext_iff, outline_context_eq]
  simp

theorem hasDeclaration_iff_outline {d : DeclId} :
    g.hasDeclaration d = true ↔ ∃ f, g.outline.declaration d = some f := by
  rw [hasDeclaration_iff, outline_declaration_eq]
  simp

theorem hasContext_of_children (hx : x ∈ g.children p) : g.hasContext p = true := by
  obtain ⟨f, hf, _⟩ := mem_children_iff.mp hx
  exact hasContext_iff_outline.mpr ⟨f, hf⟩

namespace Consistent

theorem hasContext_child (hg : g.Consistent) (hx : x ∈ g.children p) : g.hasContext x = true := by
  obtain ⟨f, hf, hmem⟩ := mem_children_iff.mp hx
  obtain ⟨fx, hfx, _⟩ := hg.tree.child hf hmem
  exact hasContext_iff_outline.mpr ⟨fx, hfx⟩

theorem declared (hg : g.Consistent) (hd : d ∈ g.localDeclarations c) :
    ∃ f, g.outline.declaration d = some f ∧ f.context = some c := by
  obtain ⟨fc, hfc, hmem⟩ := mem_localDeclarations_iff.mp hd
  exact hg.holds.own hfc hmem

theorem hasDeclaration_own (hg : g.Consistent) (hd : d ∈ g.localDeclarations c) :
    g.hasDeclaration d = true := by
  obtain ⟨f, hf, _⟩ := hg.declared hd
  exact hasDeclaration_iff_outline.mpr ⟨f, hf⟩

theorem hasContext_holder (hg : g.Consistent) {f : DeclForm}
    (hd : g.outline.declaration d = some f) (hc : f.context = some c) : g.hasContext c = true := by
  obtain ⟨fc, hfc, _⟩ := hg.holds.holder hd hc
  exact hasContext_iff_outline.mpr ⟨fc, hfc⟩

theorem exists_holder (hg : g.Consistent) {data : Declaration} (hd : g.declaration? d = some data)
    (hc : data.context = some c) : ∃ holder, g.context? c = some holder :=
  hasContext_iff.mp (hg.hasContext_holder (outline_declaration.mpr ⟨data, hd, rfl⟩) hc)

end Consistent

end Live

end Graph

namespace Outline

/-- No context is new, and a parent that is new was there. -/
structure Descends (o o' : Outline) : Prop where
  live : ∀ x, (o'.context x).isSome → (o.context x).isSome
  parent : ∀ x p, o'.parent? x = some p → o.parent? x = some p ∨ (o.context p).isSome

namespace Descends

theorem refl (o : Outline) : Descends o o := ⟨fun _ => id, fun _ _ => .inl⟩

theorem trans {o₁ o₂ o₃ : Outline} (h₁ : Descends o₁ o₂) (h₂ : Descends o₂ o₃) :
    Descends o₁ o₃ := by
  refine ⟨fun x hx => h₁.live x (h₂.live x hx), fun x p hp => ?_⟩
  rcases h₂.parent x p hp with hp | hp
  · exact h₁.parent x p hp
  · exact .inr (h₁.live p hp)

end Descends

theorem SameBranches.descends {o o' : Outline} (h : SameBranches o o') : Descends o o' := by
  refine ⟨fun x hx => ?_, fun x p hp => .inl ?_⟩
  · obtain ⟨f', hf'⟩ := Option.isSome_iff_exists.mp hx
    obtain ⟨f, hf, _⟩ := h.context hf'
    rw [hf]
    rfl
  · rw [← h.parent?]
    exact hp

end Outline

namespace Workspace

open ScopeGraph.Graph Outline

theorem Settles.consistent {w w' : Workspace} (hs : Settles w w') (hw : w.graph.Consistent) :
    w'.graph.Consistent where
  tree := hs.shape.outline ▸ hw.tree
  holds := hs.shape.outline ▸ hw.holds
  entered := hs.entered hw.entered

/-- The graph is in order, and no context was made on the way. -/
structure Upheld (w w' : Workspace) : Prop where
  orderly : w'.graph.Orderly
  descends : Descends w.graph.outline w'.graph.outline

/-- The one workspace upholds what was in order in the other. -/
def Upholds (w w' : Workspace) : Prop := w.graph.Orderly → Upheld w w'

theorem Upholds.refl (w : Workspace) : Upholds w w := fun h => ⟨h, .refl _⟩

theorem Upholds.trans {w₁ w₂ w₃ : Workspace} (h₁ : Upholds w₁ w₂) (h₂ : Upholds w₂ w₃) :
    Upholds w₁ w₃ := fun h =>
  ⟨(h₂ (h₁ h).orderly).orderly, (h₁ h).descends.trans (h₂ (h₁ h).orderly).descends⟩

instance : IsPreorder Workspace Upholds where
  refl := .refl
  trans _ _ _ := .trans

end Workspace

/-! ## 2. The same outline and the same table -/

namespace Graph

/-- The form of a context does not depend on the order of what it holds. -/
theorem form_of_perm (data : Context) {l : Locals} (h : l.ordered.Perm data.locals.ordered) :
    { data with locals := l }.form = data.form := by
  have hown : (l.ordered : Multiset DeclId) = data.locals.ordered := Multiset.coe_eq_coe.mpr h
  unfold Context.form
  rw [hown]
  rfl

/-- The view of the forms of all nodes, of what they say about the table, and of the
    table. -/
def View.registry :=
  View.whole (fun data => (data.form, data.key)) fun data => (data.form, data.key)

/-- Outline and table are the same, and all nodes say the same about the
    table. -/
abbrev SameRegistry : Graph → Graph → Prop := View.registry.Same

namespace SameRegistry

variable {g g' : Graph}

theorem shape (h : SameRegistry g g') : SameShape g g' :=
  View.Same.of_whole h Prod.fst Prod.fst (fun _ => rfl) fun _ => rfl

theorem entries (h : SameRegistry g g') : SameEntries g g' :=
  View.Same.of_whole h Prod.snd Prod.snd (fun _ => rfl) fun _ => rfl

theorem nodes (h : SameRegistry g g') : SameNodes g g' :=
  View.Same.of_whole h (fun _ => ()) (fun _ => ()) (fun _ => rfl) fun _ => rfl

theorem consistent (h : SameRegistry g g') (hg : g.Consistent) : g'.Consistent := by
  refine ⟨?_, ?_, h.entries.entered hg.entered⟩
  · rw [h.shape.outline]
    exact hg.tree
  · rw [h.shape.outline]
    exact hg.holds

theorem orderly (h : SameRegistry g g') (hg : g.Orderly) : g'.Orderly := by
  refine ⟨h.consistent hg.toConsistent, ?_, ?_, fun c => ?_, fun d => ?_⟩
  · rw [h.shape.outline]
    exact hg.rooted
  · rw [h.shape.outline]
    exact hg.flagged
  · unfold CurrentContext
    rw [h.entries.contexts, h.shape.contextKey?]
    exact hg.current.contexts c
  · unfold CurrentDeclaration
    rw [h.entries.declarations, h.shape.declarationKey?]
    exact hg.current.declarations d

theorem modifyLocals (g : Graph) (c : ContextId) {f : Locals → Locals}
    (h : ∀ l, (f l).ordered.Perm l.ordered) : SameRegistry g (g.modifyLocals c f) :=
  View.Same.modifyContext g c fun data => Prod.ext (form_of_perm data (h data.locals)) rfl

/-- The index of a context is no part of the registry. -/
theorem overlooks_index (data : Context) (l : Locals) (h : l.ordered = data.locals.ordered) :
    View.registry.context { data with locals := l } = View.registry.context data :=
  Prod.ext (Context.form_locals data l h) rfl

theorem modifyAll (g : Graph) {f : Locals → Locals} (h : ∀ l, (f l).ordered = l.ordered)
    (cs : List ContextId) : SameRegistry g (g.modifyAll f cs) :=
  View.Same.modifyAll overlooks_index g h cs

theorem spreadNames (g : Graph) (c : ContextId) (names : List (Ident × DeclId)) :
    SameRegistry g (g.spreadNames c names) :=
  View.Same.spreadNames overlooks_index g c names

theorem recallNames (g : Graph) (c : ContextId) (names : List (Ident × DeclId)) :
    SameRegistry g (g.recallNames c names) :=
  View.Same.recallNames overlooks_index g c names

theorem shareWithParent (g : Graph) (c : ContextId) : SameRegistry g (g.shareWithParent c) :=
  View.Same.shareWithParent overlooks_index g c

theorem withdrawFromParent (g : Graph) (c : ContextId) :
    SameRegistry g (g.withdrawFromParent c) :=
  View.Same.withdrawFromParent overlooks_index g c

theorem switchOn (g : Graph) (c : ContextId) : SameRegistry g (g.switchOn c) := by
  have hset : SameRegistry g (g.modifyContext c ({ · with propagates := true })) :=
    View.Same.modifyContext g c fun _ => rfl
  exact hset.trans (shareWithParent _ c)

theorem switchOff (g : Graph) (c : ContextId) : SameRegistry g (g.switchOff c) :=
  (withdrawFromParent g c).trans (View.Same.modifyContext _ c fun _ => rfl)

end SameRegistry

namespace SameEntries

theorem detach (g : Graph) (c : ContextId) (d : DeclId) : SameEntries g (g.detach c d) :=
  View.Same.detach (fun _ _ => rfl) g c d

theorem unlinkChild (g : Graph) (p c : ContextId) : SameEntries g (g.unlinkChild p c) :=
  View.Same.unlinkChild (fun _ _ _ => rfl) (fun _ _ => rfl) (fun _ _ => rfl) g p c

theorem linkChild (g : Graph) (p c : ContextId) : SameEntries g (g.linkChild p c) :=
  View.Same.linkChild (fun _ _ _ => rfl) ⟨fun _ _ => rfl, fun _ _ => rfl⟩ g p c

end SameEntries

end Graph

/-! ## 3. Beside tree, declarations and table -/

/-- The context without what neither tree nor declarations nor table depend on. -/
def Context.core (data : Context) : Context :=
  { data with
    owner := none
    imports := []
    importers := []
    uses := []
    file := data.file.map fun _ => .new ⟨0⟩ }

theorem Context.core_file (data : Context) (f : FileRecord → FileRecord) :
    { data with file := data.file.map f }.core = data.core := by
  unfold core
  rw [Option.map_map]
  rfl

theorem Context.form_core (data : Context) : data.form = data.core.form := by
  unfold form isTop core
  rw [Option.isSome_map]

namespace Graph

/-- The view of all but owners, imports, uses, types and what is known of files. -/
def View.core := View.whole Context.core Declaration.core

/-- The graphs differ in owners, imports, uses, types and what is known of files
    at most. -/
abbrev Beside : Graph → Graph → Prop := View.core.Same

theorem View.overlooksOwners_core : View.core.OverlooksOwners where
  owner _ _ := rfl
  uses _ _ := rfl
  declaration g d _ hf := .modifyDeclaration g d hf

namespace Beside

variable {g g' : Graph}

theorem sameRegistry (h : Beside g g') : SameRegistry g g' :=
  View.Same.of_whole h (fun data => (data.form, data.key)) (fun data => (data.form, data.key))
    (fun data => Prod.ext data.form_core rfl) fun _ => rfl

theorem sameStock (h : Beside g g') : SameStock g g' :=
  View.Same.of_whole h Context.stock Declaration.stock (fun _ => rfl) fun _ => rfl

/-- What can be said of the cores of declarations is the same. -/
theorem map_declaration? (h : Beside g g') {α : Type} {u : Declaration → α}
    (hu : ∀ data, u data = u data.core) (x : DeclId) :
    (g'.declaration? x).map u = (g.declaration? x).map u :=
  (View.Same.of_whole (V := .ofParts (fun _ => ()) u) h (fun _ => ()) u (fun _ => rfl)
    hu).declaration_part (f := id) x

end Beside

end Graph

namespace Workspace

/-- The view of a graph, and of how the table was changed. -/
def View.withEvents {β γ δ : Type} (V : Graph.View β γ δ) : View β γ δ (List TableEvent) where
  graph := V
  rest _ events := events

/-- The graphs have the same outline and the same table, and the table was not
    changed on the way. -/
abbrev SameRegistry : Workspace → Workspace → Prop := (View.withEvents .registry).Same

theorem View.overlooksImports_core : (withEvents .core).OverlooksImports where
  imports _ _ := rfl
  importers _ _ := rfl
  memo _ _ _ := rfl

/-- The graphs differ beside tree, declarations and table, and the table was not
    changed on the way. -/
abbrev Beside : Workspace → Workspace → Prop := (View.withEvents .core).Same

variable {w w' : Workspace}

namespace SameRegistry

theorem graph (h : SameRegistry w w') : Graph.SameRegistry w.graph w'.graph := View.Same.graph h

theorem events (h : SameRegistry w w') : w'.events = w.events := View.Same.rest h

theorem upholds (h : SameRegistry w w') : Upholds w w' := by
  refine fun hw => ⟨h.graph.orderly hw, ?_⟩
  rw [h.graph.shape.outline]
  exact .refl _

theorem onGraph {f : Graph → Graph} (h : Graph.SameRegistry w.graph (f w.graph)) :
    SameRegistry w (w.onGraph f) := View.Same.onGraph h

end SameRegistry

namespace Beside

theorem graph (h : Beside w w') : Graph.Beside w.graph w'.graph := View.Same.graph h

theorem events (h : Beside w w') : w'.events = w.events := View.Same.rest h

theorem sameRegistry (h : Beside w w') : SameRegistry w w' := .mk h.graph.sameRegistry h.events

theorem warn (w : Workspace) (x : Warning) : Beside w (w.warn x) := View.Same.warn w x

end Beside

end Workspace

/-! ## 4. The edits -/

namespace Edit

open Workspace ScopeGraph.Graph

theorem beside_addImport (c target : ContextId) (position : Option Position) :
    Follows Beside (addImport c target position) :=
  same_addImport View.overlooksImports_core c target position

theorem beside_removeImport (c target : ContextId) : Follows Beside (removeImport c target) :=
  same_removeImport View.overlooksImports_core c target

theorem beside_clearImports (c : ContextId) : Follows Beside (clearImports c) :=
  same_clearImports View.overlooksImports_core c

theorem beside_declarationIndex (t : TopId) (d : DeclId) :
    Follows Beside (declarationIndex t d) := by
  refine (follows_needDeclaration d).bind fun _ => (follows_needFile t).bind fun r => ?_
  split
  · exact follows_pure _
  · exact (same_updateContext fun data => data.core_file _).bind fun _ => follows_pure _

theorem sameRegistry_setRange (d : DeclId) (range : Span) :
    Follows SameRegistry (setRange d range) := by
  intro w
  refine after_setRange (.refl w) fun data _ _ => ?_
  let g := w.graph.modifyDeclaration d ({ · with range := range })
  have hplace : Graph.SameRegistry w.graph g := View.Same.modifyDeclaration _ d fun _ => rfl
  -- the declaration takes another place in the same list
  have hreplace : ∀ c, Graph.SameRegistry g (g.modifyLocals c fun l => if d ∈ l.ordered then
      (l.displace d).place g.startOfDeclaration d range.start else l) := by
    refine fun c => .modifyLocals g c fun l => ?_
    split
    · next hmem => exact (insertByStart_perm _ _ _ _).trans (List.perm_cons_erase hmem).symm
    · exact .refl _
  unfold placeDeclaration
  dsimp only
  split
  · cases data.context with
    | none => exact .mk hplace rfl
    | some c => exact .mk (hplace.trans (hreplace c)) rfl
  · exact .mk hplace rfl

theorem sameRegistry_setPropagates (c : ContextId) (on : Bool) :
    Follows SameRegistry (setPropagates c on) :=
  fun w => after_setPropagates (.refl w) (fun _ _ _ => .onGraph (.switchOn w.graph c))
    fun _ _ _ => .onGraph (.switchOff w.graph c)

end Edit

namespace Change

/-- The changes of owners, imports, uses, types and what is known of files. -/
def isBeside (e : Change) : Bool :=
  match e.footprint with
  | .owners | .imports | .file | .numbers => true
  | .contents | .tree | .making | .teardown => false

/-- **These leave tree, declarations and table alone.** -/
theorem beside {e : Change} (h : e.isBeside = true) (w : Workspace) : w.Beside (e.apply w) := by
  cases hf : e.footprint with
  | owners => exact same_of_owners hf Graph.View.overlooksOwners_core w
  | imports => exact same_of_imports hf Workspace.View.overlooksImports_core w
  | file => exact same_of_file hf (fun data f _ => data.core_file f) w
  | numbers =>
    cases e with
    | declarationIndex t d => exact Edit.beside_declarationIndex t d w
    | _ => cases hf
  | contents | tree | making | teardown =>
    unfold isBeside at h
    rw [hf] at h
    cases h

end Change

end ScopeGraph
