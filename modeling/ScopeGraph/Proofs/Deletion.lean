/-
  File:      ScopeGraph/Proofs/Deletion.lean
  Subject:   What a deleted context takes with it, and what is left.

  A context goes with all contexts below it and with what they declare. All that
  referred to a node that goes is cleared on the way, from either end, so that a
  handle which is given out again later is found nowhere under its old meaning.

  * `Graph.Intact`: every link of a live node, and every entry of the symbol table,
    leads to a live node;
  * `Workspace.Leaves`: what each step of a teardown leaves as it was;
  * `Workspace.Deletion`: what a deletion frees, forgets and keeps;
  * `Workspace.deleteContext_frees_tree`: that is what deleting a context does.
-/
import ScopeGraph.Proofs.Steps

namespace ScopeGraph

/-! ## 1. Links -/

/-- A memo that says nothing of a file. -/
def HopMemo.Lacks (m : HopMemo) (t : TopId) : Prop :=
  ∀ e ∈ m.entries, e.source ≠ t ∧ e.target ≠ t ∧ e.hop ≠ some t

namespace Graph

/-- **No link leads to a node that is gone.** -/
structure Intact (g : Graph) : Prop where
  children : ∀ c data x, g.context? c = some data → x ∈ data.children → g.hasContext x = true
  imports : ∀ c data x, g.context? c = some data → x ∈ data.imports.map (·.context) →
    g.hasContext x = true
  importers : ∀ c data x, g.context? c = some data → x ∈ data.importers → g.hasContext x = true
  ordered : ∀ c data d, g.context? c = some data → d ∈ data.locals.ordered →
    g.hasDeclaration d = true
  owner : ∀ c data d, g.context? c = some data → data.owner = some d → g.hasDeclaration d = true
  internal : ∀ d data x, g.declaration? d = some data → data.internal = some x →
    g.hasContext x = true
  holder : ∀ d data x, g.declaration? d = some data → data.context = some x → g.hasContext x = true
  tableContexts : ∀ x ∈ g.table.contexts.values, g.hasContext x = true
  tableDeclarations : ∀ d ∈ g.table.declarations.values, g.hasDeclaration d = true

variable {g : Graph}

/-- What is held under some path is there. -/
theorem hasContext_of_held {x : ContextId} {path : List Ident} (h : g.heldContext x = some path) :
    g.hasContext x = true := by
  obtain ⟨data, hdata, _⟩ := Option.bind_eq_some_iff.mp h
  exact hasContext_iff.mpr ⟨data, hdata⟩

theorem hasDeclaration_of_held {d : DeclId} {path : List Ident}
    (h : g.heldDeclaration d = some path) : g.hasDeclaration d = true := by
  obtain ⟨data, hdata, _⟩ := Option.bind_eq_some_iff.mp h
  exact hasDeclaration_iff.mpr ⟨data, hdata⟩

/-- **A graph in which links are known at both ends has no link that leads nowhere.** -/
theorem intact (hg : g.Consistent) (hmirrored : g.Mirrored) (howned : g.Owned) : g.Intact where
  children c data x hc hx :=
    hg.hasContext_child (mem_children_iff.mpr ⟨_, outline_context.mpr ⟨data, hc, rfl⟩, hx⟩)
  imports c data x hc hx := by
    obtain ⟨other, hother, _⟩ :=
      (hmirrored.mirror c x).mp ⟨data, hc, importsDirectly_iff.mpr hx⟩
    exact hasContext_iff.mpr ⟨other, hother⟩
  importers c data x hc hx := by
    obtain ⟨other, hother, _⟩ := (hmirrored.mirror x c).mpr ⟨data, hc, hx⟩
    exact hasContext_iff.mpr ⟨other, hother⟩
  ordered c data d hc hd := hg.hasDeclaration_own
    (mem_localDeclarations_iff.mpr ⟨_, outline_context.mpr ⟨data, hc, rfl⟩, hd⟩)
  owner c data d hc hd := by
    have howner : g.ownerOf? c = some d := by
      unfold ownerOf?
      rw [hc]
      exact hd
    obtain ⟨other, hother, _⟩ := Option.bind_eq_some_iff.mp ((howned c d).mp howner)
    exact hasDeclaration_iff.mpr ⟨other, hother⟩
  internal d data x hd hx := by
    have hinternal : g.internalOf? d = some x := by
      unfold internalOf?
      rw [hd]
      exact hx
    obtain ⟨other, hother, _⟩ := Option.bind_eq_some_iff.mp ((howned x d).mpr hinternal)
    exact hasContext_iff.mpr ⟨other, hother⟩
  holder d data x hd hx := hg.hasContext_holder (outline_declaration.mpr ⟨data, hd, rfl⟩) hx
  tableContexts x hx := by
    obtain ⟨path, hpath⟩ := Multimap.exists_find_of_mem_values hg.entered.contexts.keys hx
    exact hasContext_of_held ((hg.entered.contexts.mem path x).mp hpath)
  tableDeclarations d hd := by
    obtain ⟨path, hpath⟩ := Multimap.exists_find_of_mem_values hg.entered.declarations.keys hd
    exact hasDeclaration_of_held ((hg.entered.declarations.mem path d).mp hpath)

end Graph

/-! ## 2. What a step leaves -/

/-- What a context has left when some contexts go. -/
def Context.residue (keep : ContextId → Bool) (data : Context) :
    ContextKind × Span × QualName × List Use × List ContextId × List DeclId × List Import :=
  (data.kind, data.range, data.scopeName, data.uses, data.children.filter keep,
    data.locals.ordered, data.imports.filter (keep ·.context))

namespace Workspace

open ScopeGraph.Graph Outline

/-- A context that does not hold a declaration does not show that it goes, but where
    it tells of owners, of files or of the names that inner contexts share. -/
theorem map_context?_discard {α : Type} {v : Context → α} {w : Workspace} {d : DeclId}
    {data : Declaration} {x : ContextId}
    (hlocals : ∀ (data : Context) (l : Locals), l.ordered = data.locals.ordered →
      v { data with locals := l } = v data)
    (howner : ∀ (data : Context) (o : Option DeclId), v { data with owner := o } = v data)
    (hfile : ∀ (data : Context) (r : Option FileRecord), v { data with file := r } = v data)
    (hd : w.graph.declaration? d = some data) (hx : data.context ≠ some x) :
    ((w.discard d data).graph.context? x).map v = (w.graph.context? x).map v := by
  have hbereft : ∀ (data : Context) (owned listed : Bool), v (data.bereft d owned listed) = v data := by
    intro data owned listed
    have hfile' := hfile { data with owner := (data.bereft d owned listed).owner }
      (data.bereft d owned listed).file
    exact hfile'.trans (howner data _)
  rw [context?_discard, Option.map_map]
  simp only [Function.comp_def, hbereft]
  cases hc : data.context with
  | none => rfl
  | some c =>
    have hne : x ≠ c := fun e => hx (e ▸ hc)
    show ((w.graph.detach c d).context? x).map v = _
    unfold Graph.detach
    rw [hd]
    refine (map_context?_modifyAll (fun data => ?_) _ x).trans ?_
    · exact hlocals data _ (Locals.ordered_dropNames _ _)
    · show ((w.graph.modifyContext c _).context? x).map v = _
      rw [context?_modifyContext, if_neg hne]

/-- **What is to be kept is left as it was**: contexts with their links to others
    that are kept, and declarations. A file that is gone is forgotten. -/
structure Leaves (keep : ContextId → Bool) (w w' : Workspace) : Prop where
  contexts : ∀ x, keep x = true → (w'.graph.context? x).map (·.residue keep) =
    (w.graph.context? x).map (·.residue keep)
  declarations : ∀ d f, w.graph.outline.declaration d = some f →
    (∀ x, f.context = some x → keep x = true) → w'.graph.outline.declaration d = some f
  memo : ∀ e ∈ w'.memo.entries, e ∈ w.memo.entries
  forgets : ∀ x data, w.graph.context? x = some data → data.isTop = true →
    w'.graph.context? x = none → w'.memo.Lacks ⟨x⟩

namespace Leaves

variable {keep : ContextId → Bool} {w w' w'' : Workspace} {c : ContextId}

theorem refl (keep : ContextId → Bool) (w : Workspace) : Leaves keep w w where
  contexts _ _ := rfl
  declarations _ _ hd _ := hd
  memo _ := id
  forgets x data hx _ hgone := by
    rw [hgone] at hx
    cases hx

theorem trans (h : Leaves keep w w') (h' : Leaves keep w' w'') (hkeeps : KeepsGuise w.graph w'.graph) :
    Leaves keep w w'' where
  contexts x hx := (h'.contexts x hx).trans (h.contexts x hx)
  declarations d f hd hf := h'.declarations d f (h.declarations d f hd hf) hf
  memo e he := h.memo e (h'.memo e he)
  forgets x data hx htop hgone := by
    cases hx' : w'.graph.context? x with
    | none => exact fun e he => h.forgets x data hx htop hx' e (h'.memo e he)
    | some data' =>
      -- a file that is there in between is a file still
      obtain ⟨data₀, hdata₀, hguise, _⟩ := hkeeps x data' hx'
      cases hx.symm.trans hdata₀
      have htop' : data.isTop = data'.isTop := by
        simp only [Context.guise, Prod.mk.injEq] at hguise
        exact hguise.2.2.2.2.2
      exact h'.forgets x data' hx' (htop' ▸ htop) hgone

/-- Nothing is forgotten where nothing goes. -/
theorem of_live (hcontexts : ∀ x, keep x = true → (w'.graph.context? x).map (·.residue keep) =
      (w.graph.context? x).map (·.residue keep))
    (hdecl : ∀ d f, w.graph.outline.declaration d = some f →
      (∀ x, f.context = some x → keep x = true) → w'.graph.outline.declaration d = some f)
    (hmemo : ∀ e ∈ w'.memo.entries, e ∈ w.memo.entries)
    (hlive : ∀ x, w'.graph.context? x = none → w.graph.context? x = none) : Leaves keep w w' := by
  refine ⟨hcontexts, hdecl, hmemo, fun x data hx _ hgone => ?_⟩
  rw [hlive x hgone] at hx
  cases hx

/-- Imports of what is kept stay in their order when another one goes. -/
theorem filter_eraseP_imports {target : ContextId} (htarget : keep target = false)
    (imports : List Import) :
    (imports.eraseP (·.context = target)).filter (keep ·.context) =
      imports.filter (keep ·.context) := by
  induction imports with
  | nil => rfl
  | cons i rest ih =>
    by_cases hi : i.context = target
    · simp [hi, htarget]
    · simp [hi, List.filter_cons, ih]

theorem unimport {a b : ContextId} (hab : keep a = false ∨ keep b = false) (isTop : Bool) :
    Leaves keep w ((w.unlinkImport a b).forgetIf isTop a) := by
  have hsame := (Beside.unimport w a b isTop).sameRegistry
  refine of_live (fun x hx => ?_) (fun d f hd _ => ?_) (addsNothing_forgetIf _ isTop a).memo
    fun x hgone => ?_
  · rw [graph_forgetIf]
    refine (map_context?_modifyContext _ b (fun _ => ?_) x).trans ?_
    · rfl
    · show ((w.graph.modifyContext a _).context? x).map _ = _
      rw [context?_modifyContext]
      split
      · next hxa =>
        have hb : keep b = false := by
          rcases hab with ha | hb
          · rw [hxa, ha] at hx
            cases hx
          · exact hb
        cases w.graph.context? x with
        | none => rfl
        | some data => simp [Context.residue, filter_eraseP_imports hb]
      · rfl
  · rw [hsame.graph.shape.outline]
    exact hd
  · have hlive := hsame.isSome_context? x
    rw [hgone] at hlive
    exact Option.isNone_iff_eq_none.mp (Option.isSome_eq_false_iff.mp hlive.symm)

theorem clearUses (hc : keep c = false) :
    Leaves keep w (w.onGraph (·.modifyContext c ({ · with uses := [] }))) := by
  have hat : ∀ x, (w.onGraph (·.modifyContext c ({ · with uses := [] }))).graph.context? x =
      if x = c then (w.graph.context? x).map ({ · with uses := [] }) else w.graph.context? x :=
    fun x => context?_modifyContext w.graph c x _
  refine of_live (fun x hx => ?_) (fun _ _ hd _ => hd) (fun _ => id) fun x hgone => ?_
  · rw [hat, if_neg fun e => ?_]
    rw [e, hc] at hx
    cases hx
  · rw [hat] at hgone
    split at hgone
    · exact Option.map_eq_none_iff.mp hgone
    · exact hgone

theorem sever {data : Context} (hw : w.graph.Consistent) (hc : keep c = false)
    (hdata : w.graph.context? c = some data) : Leaves keep w (w.sever c data) := by
  obtain ⟨_, _, _, _, hstock⟩ := severs hw hdata
  refine of_live (fun x hx => ?_) (fun d f hd _ => ?_) (fun e he => ?_) fun x hgone => ?_
  · rw [context?_sever, if_neg fun e => ?_]
    rw [e, hc] at hx
    cases hx
  · exact (hstock.declaration_part Prod.snd d).trans hd
  · rw [(SameTies.sever w c data).memo] at he
    exact he
  · rw [context?_sever] at hgone
    split at hgone
    · exact Option.map_eq_none_iff.mp hgone
    · exact hgone

theorem discard {d : DeclId} {data : Declaration} (hc : keep c = false)
    (hd : w.graph.declaration? d = some data) (hholder : data.context = some c) :
    Leaves keep w (w.discard d data) := by
  have hdiscards := discards hd
  refine of_live (fun x hx => ?_) (fun d' f hd' hf => ?_) (fun e he => ?_) fun x hgone => ?_
  · refine map_context?_discard (fun data l hl => ?_) (fun _ _ => rfl) (fun _ _ => rfl) hd
      fun hxc => ?_
    · simp only [Context.residue, hl]
    · cases hholder.symm.trans hxc
      rw [hc] at hx
      cases hx
  · have hne : d' ≠ d := by
      intro e
      subst e
      rw [outline_declaration.mpr ⟨data, hd, rfl⟩] at hd'
      cases hd'
      rw [hf c hholder] at hc
      cases hc
    exact (hdiscards.declaration_of_ne hne).trans hd'
  · rw [(SameTies.discard w d data).memo] at he
    exact he
  · cases hx : w.graph.context? x with
    | none => rfl
    | some data₀ =>
      obtain ⟨own, hf⟩ := hdiscards.sameTree.symm.context (outline_context.mpr ⟨data₀, hx, rfl⟩)
      rw [outline_context_eq, hgone] at hf
      cases hf

theorem residue_loosen {g : Graph} (hc : keep c = false) (data : Context) (x : ContextId) :
    ((g.loosen c data).context? x).map (·.residue keep) =
      (g.context? x).map (·.residue keep) := by
  unfold loosen
  cases data.parent with
  | none => rfl
  | some p =>
    dsimp only [Option.elim]
    split
    · rfl
    · unfold unlinkChild
      refine (map_context?_modifyContext _ c (fun data => ?_) x).trans
        ((map_context?_modifyContext _ p (fun data => ?_) x).trans
          (map_context?_withdrawFromParent (fun data l hl => ?_) x))
      · split <;> rfl
      · have hfilter : (data.children.filter (· ≠ c)).filter keep = data.children.filter keep := by
          rw [List.filter_filter]
          refine List.filter_congr fun y _ => ?_
          by_cases hy : y = c
          · simp [hy, hc]
          · simp [hy]
        simp only [Context.residue, hfilter]
      · simp only [Context.residue, hl]

theorem release {data : Context} (hw : w.graph.Consistent) (hc : keep c = false)
    (hbare : w.Bare c data) : Leaves keep w (w.release c data) := by
  have hat : ∀ x, (w.release c data).graph.context? x =
      if x = c then none else (w.graph.loosen c data).context? x := by
    intro x
    rw [graph_release]
    exact context?_eraseContext _ c x
  have hmemo : (w.release c data).memo = if data.isTop then w.memo.forgetTop ⟨c⟩ else w.memo := by
    unfold Workspace.release onGraph
    cases data.parent <;> cases data.anonymous <;> cases data.isTop <;> rfl
  obtain ⟨_, hentries, hgraft, _⟩ := loosened hw hbare.context
  refine ⟨fun x hx => ?_, fun d f hd _ => ?_, fun e he => ?_, fun x data' hx htop hgone => ?_⟩
  · rw [hat, if_neg fun e => ?_]
    · exact residue_loosen hc data x
    · rw [e, hc] at hx
      cases hx
  · rw [graph_release, outline_eraseContext]
    show (w.graph.loosen c data).outline.declaration d = some f
    rw [hgraft.declaration]
    exact hd
  · rw [hmemo] at he
    split at he
    · exact List.mem_of_mem_filter he
    · exact he
  · have hxc : x = c := by
      rw [hat] at hgone
      split at hgone
      · assumption
      · have hsame := residue_loosen (g := w.graph) hc data x
        rw [hgone, hx] at hsame
        cases hsame
    subst hxc
    cases hx.symm.trans hbare.context
    rw [hmemo, if_pos htop]
    intro e he
    simpa using (List.mem_filter.mp he).2

end Leaves

variable {keep : ContextId → Bool} {S : ContextId → Prop} {w w' : Workspace} {c : ContextId}

theorem TeardownStep.leaves (h : TeardownStep S w w') (hw : w.graph.Consistent)
    (hS : ∀ x, S x → keep x = false) : Leaves keep w w' := by
  cases h with
  | @unimport a b data hab _ => exact .unimport (hab.imp (hS a) (hS b)) data.isTop
  | clearUses hc => exact .clearUses (hS _ hc)
  | sever hc hdata => exact .sever hw (hS _ hc) hdata
  | discard hc hd hholder => exact .discard (hS _ hc) hd hholder
  | release hc hbare _ => exact .release hw (hS _ hc) hbare

/-- **A teardown on its way leaves what is to be kept.** -/
theorem TeardownSteps.leaves (h : TeardownSteps S w w') (hw : w.graph.Consistent)
    (hS : ∀ x, S x → keep x = false) : Leaves keep w w' := by
  induction h with
  | refl => exact .refl keep w
  | tail hteardown hstep ih =>
    exact ih.trans (hstep.leaves (TeardownSteps.consistent hteardown hw) hS)
      (TeardownSteps.keepsGuise hteardown)

end Workspace

/-! ## 3. Deleting a context -/

/-- A context and all below it through lists of children. -/
def Graph.TreeOf (g : Graph) : ContextId → ContextId → Prop :=
  Relation.ReflTransGen fun p x => x ∈ g.children p

theorem Graph.treeOf_iff {g : Graph} {c x : ContextId} : g.TreeOf c x ↔ g.outline.Below c x := by
  have hchild : (fun p x => x ∈ g.children p) = g.outline.Child :=
    funext fun _ => funext fun _ => propext mem_children_iff
  unfold TreeOf Outline.Below
  rw [hchild]

namespace Workspace

open ScopeGraph.Graph Outline

/-- A context is taken out of a graph in order: the contexts of its tree go, and the
    declarations they hold. -/
structure DeletesTree (w : Workspace) (c : ContextId) (w' : Workspace) : Prop where
  consistent : w'.graph.Consistent
  steps : Relation.ReflTransGen Step w.graph w'.graph
  leaves : Leaves w'.graph.hasContext w w'
  contexts : ∀ x, w'.graph.hasContext x = true ↔
    w.graph.hasContext x = true ∧ ¬ w.graph.TreeOf c x
  declarations : ∀ d f, w'.graph.outline.declaration d = some f ↔
    w.graph.outline.declaration d = some f ∧ ∀ x, f.context = some x → ¬ w.graph.TreeOf c x

theorem deletesTree {w : Workspace} {c : ContextId} (hw : w.graph.Consistent)
    (hc : w.graph.hasContext c = true) :
    ∃ w', Edit.deleteContext c w = .ok () w' ∧ w.DeletesTree c w' := by
  obtain ⟨data, hdata⟩ := hasContext_iff.mp hc
  obtain ⟨w₁, bare, hok, hteardown, hbare⟩ := Edit.deleteContext_ok hw hdata
  let w' := w₁.release c bare
  have hw₁ := hteardown.consistent hw
  obtain ⟨hw', hreleased, hdead⟩ := released hw₁ hbare
  have hprunes : Prunes (w.graph.outline.Below c) w.graph w'.graph :=
    (hteardown.prunes hw).trans (hreleased.mono fun x e => e ▸ .refl)
  have hgone : ∀ x, w.graph.outline.Below c x → w'.graph.hasContext x = false := by
    intro x hx
    refine Bool.eq_false_iff.mpr fun hlive => ?_
    obtain ⟨f, hf⟩ := hasContext_iff_outline.mp hlive
    rw [hprunes.gone hw.tree hw'.tree hdead hx] at hf
    cases hf
  have hleaves : Leaves w'.graph.hasContext w w' :=
    (hteardown.leaves hw hgone).trans (.release hw₁ (hgone c .refl) hbare) hteardown.keepsGuise
  have hcontexts : ∀ x, w'.graph.hasContext x = true ↔
      w.graph.hasContext x = true ∧ ¬ w.graph.TreeOf c x := by
    intro x
    rw [treeOf_iff]
    constructor
    · intro hx
      obtain ⟨f', hf'⟩ := hasContext_iff_outline.mp hx
      obtain ⟨f, hf, _⟩ := hprunes.context hf'
      refine ⟨hasContext_iff_outline.mpr ⟨f, hf⟩, fun hbelow => ?_⟩
      rw [hgone x hbelow] at hx
      cases hx
    · rintro ⟨hx, hout⟩
      obtain ⟨f, hf⟩ := hasContext_iff_outline.mp hx
      obtain ⟨f', hf', _⟩ := hprunes.live hout hf
      exact hasContext_iff_outline.mpr ⟨f', hf'⟩
  refine ⟨w', hok, hw', hteardown.steps.trans (.release hbare), hleaves, hcontexts,
    fun d f => ⟨fun hf => ⟨(hprunes.declaration hf).1, fun x hx => ?_⟩, fun ⟨hf, hout⟩ => ?_⟩⟩
  · exact ((hcontexts x).mp (hw'.hasContext_holder hf hx)).2
  · refine hleaves.declarations d f hf fun x hx => ?_
    exact (hcontexts x).mpr ⟨hw.hasContext_holder hf hx, hout x hx⟩

/-- **What deleting a context comes to.** The contexts of its tree go, and the
    declarations they hold; no link to any of them is left, and nothing is remembered
    of files among them. What stays keeps its looks, its uses, and the order of what
    is left of its links. -/
structure Deletion (w : Workspace) (c : ContextId) (w' : Workspace) : Prop where
  contexts : ∀ x, w'.graph.hasContext x = true ↔
    w.graph.hasContext x = true ∧ ¬ w.graph.TreeOf c x
  declarations : ∀ d, w'.graph.hasDeclaration d = true ↔ ∃ data,
    w.graph.declaration? d = some data ∧ ∀ x, data.context = some x → ¬ w.graph.TreeOf c x
  intact : w'.graph.Intact
  forgotten : ∀ x, w.graph.TreeOf c x → w.graph.IsTop ⟨x⟩ → w'.memo.Lacks ⟨x⟩
  kept : ∀ x data', w'.graph.context? x = some data' → ∃ data, w.graph.context? x = some data ∧
    data'.kind = data.kind ∧ data'.range = data.range ∧ data'.scopeName = data.scopeName ∧
    data'.uses = data.uses ∧ data'.children = data.children.filter w'.graph.hasContext ∧
    data'.locals.ordered = data.locals.ordered ∧
    data'.imports = data.imports.filter (w'.graph.hasContext ·.context)

/-- What is left of a context, if no link of it leads nowhere. -/
theorem Leaves.kept {keep : ContextId → Bool} {w w' : Workspace} {x : ContextId} {data' : Context}
    (h : Leaves keep w w') (hx : w'.graph.context? x = some data') (hkeep : keep x = true)
    (hchildren : ∀ y ∈ data'.children, keep y = true)
    (himports : ∀ i ∈ data'.imports, keep i.context = true) :
    ∃ data, w.graph.context? x = some data ∧ data'.kind = data.kind ∧ data'.range = data.range ∧
      data'.scopeName = data.scopeName ∧ data'.uses = data.uses ∧
      data'.children = data.children.filter keep ∧ data'.locals.ordered = data.locals.ordered ∧
      data'.imports = data.imports.filter (keep ·.context) := by
  obtain ⟨data, hdata, hsame⟩ := exists_of_map_eq (h.contexts x hkeep) hx
  simp only [Context.residue, Prod.mk.injEq, List.filter_eq_self.mpr hchildren,
    List.filter_eq_self.mpr himports] at hsame
  obtain ⟨hkind, hrange, hscope, huses, hkids, hordered, hlinks⟩ := hsame
  exact ⟨data, hdata, hkind.symm, hrange.symm, hscope.symm, huses.symm, hkids.symm, hordered.symm,
    hlinks.symm⟩

/-- **A context that is there is deleted.** -/
theorem deletion {w : Workspace} {c : ContextId} (hw : w.graph.Consistent) (hlinked : w.Linked)
    (howned : w.graph.Owned) (hc : w.graph.hasContext c = true) :
    ∃ w', Edit.deleteContext c w = .ok () w' ∧ w.Deletion c w' := by
  obtain ⟨w', hok, h⟩ := deletesTree hw hc
  have hmirrored := ((Edit.keepsWired_deleteContext c).of_ok hok hlinked.toWired).wired.mirrored
  have hintact : w'.graph.Intact := intact h.consistent hmirrored (howned.steps h.steps)
  refine ⟨w', hok, h.contexts, fun d => ?_, hintact, fun x hx htop => ?_, fun x data' hx => ?_⟩
  · rw [hasDeclaration_iff_outline]
    simp only [h.declarations, outline_declaration]
    constructor
    · rintro ⟨_, ⟨data, hdata, rfl⟩, hout⟩
      exact ⟨data, hdata, hout⟩
    · rintro ⟨data, hdata, hout⟩
      exact ⟨_, ⟨data, hdata, rfl⟩, hout⟩
  · obtain ⟨data, hdata, htop⟩ := isTop_iff.mp htop
    refine h.leaves.forgets x data hdata htop (Option.not_isSome_iff_eq_none.mp fun hlive => ?_)
    exact ((h.contexts x).mp hlive).2 hx
  · refine h.leaves.kept hx (hasContext_iff.mpr ⟨data', hx⟩) (fun y hy => ?_) fun i hi => ?_
    · exact hintact.children x data' y hx hy
    · exact hintact.imports x data' i.context hx (List.mem_map_of_mem hi)

/-- **Deleting a context frees exactly its tree and what the tree declares, leaves no
    link to what is freed, and leaves everything else in its place**, whatever calls
    came before. -/
theorem deleteContext_frees_tree (limits : Limits) (calls : List Call)
    (hfrees : (empty limits).FewFrees calls) (c : ContextId)
    (hc : ((empty limits).run calls).graph.hasContext c = true) :
    ∃ w', Edit.deleteContext c ((empty limits).run calls) = .ok () w' ∧
      ((empty limits).run calls).Deletion c w' := by
  obtain ⟨_, hkept, _⟩ := kept_run hfrees
  exact deletion hkept.kempt.consistent (faithful_run hfrees).linked (stepped_run hfrees).1 hc

/-- Two files, of which the second imports the first. In the first is a namespace
    that a declaration of the second opens, and in it a declaration. What imports
    which was asked for. -/
def importedFile : List Call :=
  [.change (.createTop ⟨0⟩ {}), .change (.createTop ⟨1⟩ {}), .change (.createContext ⟨0, 0⟩ {}),
    .change (.setKind ⟨2, 0⟩ .nameSpace), .change (.declare ⟨2, 0⟩ "x" {} .ordinary),
    .change (.declare ⟨1, 0⟩ "y" {} .ordinary), .change (.setInternal ⟨1, 0⟩ (some ⟨2, 0⟩)),
    .change (.addImport ⟨1, 0⟩ ⟨0, 0⟩ none), .change (.register ⟨⟨0, 0⟩⟩),
    .question (.importsTop ⟨⟨1, 0⟩⟩ ⟨⟨0, 0⟩⟩)]

theorem deleteContext_frees_tree_imported :
    let w := (empty {}).run importedFile
    w.graph.hasContext ⟨0, 0⟩ = true ∧ w.graph.TreeOf ⟨0, 0⟩ ⟨2, 0⟩ ∧
      w.graph.internalOf? ⟨1, 0⟩ = some ⟨2, 0⟩ ∧
      w.memo.find? ⟨⟨1, 0⟩⟩ ⟨⟨0, 0⟩⟩ = some (some ⟨⟨0, 0⟩⟩) ∧
      ∃ w', Edit.deleteContext ⟨0, 0⟩ w = .ok () w' ∧ w.Deletion ⟨0, 0⟩ w' := by
  refine ⟨by decide +kernel, .single (by decide +kernel), by decide +kernel, by decide +kernel, ?_⟩
  exact deleteContext_frees_tree {} importedFile (fewFrees_of_length (by decide)) ⟨0, 0⟩
    (by decide +kernel)

end Workspace

end ScopeGraph
