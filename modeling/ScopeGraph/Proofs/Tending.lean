/-
  File:      ScopeGraph/Proofs/Tending.lean
  Subject:   Every call keeps tree, lists and indices up.

  Most edits keep a kempt graph kempt, with the surplus it had, and make no context
  (`Workspace.KeepsKempt`). All do, but for those that make a context and for one
  that deletes an anonymous context: such a context is no child, so it is not taken
  from below its parent when it goes, and what it passed on stays with the parent.

  * `TeardownSteps.keepsKempt`: a teardown on its way makes no surplus;
  * `Change.kept`: what one change does to the surplus. It stays empty unless
    names are stranded (`Graph.strands`);
  * `Workspace.kept_run`: after every sequence of calls the graph is kempt.
-/
import ScopeGraph.Proofs.Upkeep

namespace ScopeGraph

/-! ## 1. Edits that keep a workspace kempt -/

namespace Workspace

open ScopeGraph.Graph Outline

/-- The graph is kempt, and no context was made on the way. -/
structure KemptAfter (w w' : Workspace) (s : Multiset Origin) : Prop where
  kempt : w'.graph.Kempt s
  descends : Descends w.graph.outline w'.graph.outline

/-- The one workspace keeps what was kempt in the other, with the same surplus. -/
def KeepsKempt (w w' : Workspace) : Prop := ∀ s, w.graph.Kempt s → KemptAfter w w' s

theorem KemptAfter.trans {w₁ w₂ w₃ : Workspace} {s : Multiset Origin} (h₁ : KemptAfter w₁ w₂ s)
    (h₂ : KemptAfter w₂ w₃ s) : KemptAfter w₁ w₃ s := ⟨h₂.kempt, h₁.descends.trans h₂.descends⟩

theorem KeepsKempt.refl (w : Workspace) : KeepsKempt w w := fun _ h => ⟨h, .refl _⟩

theorem KeepsKempt.trans {w₁ w₂ w₃ : Workspace} (h₁ : KeepsKempt w₁ w₂) (h₂ : KeepsKempt w₂ w₃) :
    KeepsKempt w₁ w₃ :=
  fun s h => (h₁ s h).trans (h₂ s (h₁ s h).kempt)

instance : IsPreorder Workspace KeepsKempt where
  refl := .refl
  trans _ _ _ := .trans

variable {w w' : Workspace} {c : ContextId} {d : DeclId}

theorem keepsKempt_of_sameStock (h : SameStock w.graph w'.graph)
    (hconsistent : w.graph.Consistent → w'.graph.Consistent) : KeepsKempt w w' :=
  fun _ hw => ⟨hw.of_sameStock h (hconsistent hw.consistent), h.descends⟩

theorem Beside.keepsKempt (h : w.Beside w') : KeepsKempt w w' :=
  keepsKempt_of_sameStock h.graph.sameStock h.graph.sameRegistry.consistent

theorem Settles.keepsKempt (h : Settles w w') : KeepsKempt w w' :=
  keepsKempt_of_sameStock h.stock h.consistent

theorem SameRegistry.keepsKempt (h : SameRegistry w w')
    (hsorted : w.graph.Consistent → w.graph.Sorted → w'.graph.Sorted)
    (hshown : w.graph.Consistent → ∀ O, w.graph.Shown O → w'.graph.Shown O) : KeepsKempt w w' := by
  have houtline : w'.graph.outline = w.graph.outline := h.graph.shape.outline
  refine fun s hw => ⟨hw.of_shown (h.graph.consistent hw.consistent)
    (hsorted hw.consistent hw.sorted) (houtline ▸ rfl) (hshown hw.consistent), ?_⟩
  rw [houtline]
  exact .refl _

theorem keepsKempt_registerSubtree (w : Workspace) (c : ContextId) (registered : Bool) :
    KeepsKempt w (w.registerSubtree c registered) :=
  keepsKempt_of_sameStock (sameStock_registerSubtree w c registered)
    (consistent_registerSubtree w c registered)

/-! ## 2. Edits of declarations -/

theorem keepsKempt_syncDeclaration (h : ∀ s, w.graph.Kempt s → w'.graph.Kempt s)
    (ht : w.graph.outline.Holds → w.graph.Touches w'.graph d) :
    KeepsKempt w (w'.syncDeclaration d) := by
  refine KeepsKempt.trans (fun s hs => ⟨h s hs, ?_⟩) (w'.settles_syncDeclaration d).keepsKempt
  exact (ht hs.consistent.holds).tree.sameBranches.descends

variable {data : Declaration}

theorem keepsKempt_moveDeclaration {target : Context} (hc : w.graph.context? c = some target)
    (hd : w.graph.declaration? d = some data) :
    KeepsKempt w (w.moveDeclaration c d data.context) := by
  rw [moveDeclaration_eq]
  exact keepsKempt_syncDeclaration (fun _ hs => hs.move hc hd) fun hh => touches_move hh hc hd

theorem keepsKempt_dropDeclaration (hd : w.graph.declaration? d = some data)
    (hc : data.context = some c) : KeepsKempt w (w.dropDeclaration c d) :=
  keepsKempt_syncDeclaration (fun _ hs => hs.drop hd hc) fun hh => touches_drop hh hd hc

theorem keepsKempt_renameDeclaration (hd : w.graph.declaration? d = some data) (name : Ident) :
    KeepsKempt w (w.renameDeclaration d data name) := by
  rw [renameDeclaration_eq]
  exact keepsKempt_syncDeclaration (fun _ hs => hs.rename hd name)
    fun hh => touches_rename hh d data name

theorem keepsKempt_discard (hd : w.graph.declaration? d = some data) :
    KeepsKempt w (w.discard d data) :=
  fun _ hs => ⟨hs.discard hd (discards hd), (discards hd).sameTree.sameBranches.descends⟩

/-- The order of a list after one of its declarations changed its place. -/
theorem sorted_placeDeclaration (hd : w.graph.declaration? d = some data) (range : Span)
    (hw : w.graph.Consistent) (hs : w.graph.Sorted) :
    (w.placeDeclaration d data range).graph.Sorted := by
  have hform : w.graph.outline.declaration d = some data.form := outline_declaration.mpr ⟨_, hd, rfl⟩
  unfold placeDeclaration
  dsimp only
  split
  · cases hc : data.context with
    | none =>
      -- a declaration that nothing holds is in no list
      refine hs.modifyLoose (fun x hx => ?_) _
      obtain ⟨f, hf, hmem⟩ := mem_localDeclarations_iff.mp hx
      obtain ⟨fd, hfd, hholder⟩ := hw.holds.own hf hmem
      cases hform.symm.trans hfd
      cases hc.symm.trans hholder
    | some c => exact hs.placeDeclaration hw.holds hd hc range
  · next hstart =>
    refine hs.congr (fun _ => rfl) fun x => ?_
    show ((w.graph.modifyDeclaration d _).declaration? x).map _ = _
    rw [declaration?_modifyDeclaration]
    split
    · next hx =>
      rw [hx, hd]
      exact congrArg some (not_ne_iff.mp hstart).symm
    · rfl

theorem shown_placeDeclaration (data : Declaration) (range : Span) {O : Multiset Origin}
    (h : w.graph.Shown O) : (w.placeDeclaration d data range).graph.Shown O := by
  have hmoved := h.modifyDeclaration d ({ · with range := range })
  unfold placeDeclaration
  dsimp only
  split
  · cases data.context with
    | none => exact hmoved
    | some c =>
      refine hmoved.modifyContext c (fun _ => rfl) (fun _ => rfl) fun _ => ?_
      dsimp only
      split <;> rfl
  · exact hmoved

theorem keepsKempt_switchOn {data : Context} (hc : w.graph.context? c = some data)
    (hoff : data.propagates = false) : KeepsKempt w (w.onGraph (·.switchOn c)) := by
  refine SameRegistry.keepsKempt (.onGraph (.switchOn w.graph c)) (fun _ hs => ?_) fun hw O hO => ?_
  · have hon : (w.graph.modifyContext c ({ · with propagates := true })).Sorted :=
      hs.modifyContext (fun _ => rfl) (fun _ _ => id) fun _ _ => id
    exact hon.shareWithParent c
  · exact hO.startPropagating hw.tree hc hoff

theorem keepsKempt_switchOff (w : Workspace) (c : ContextId) :
    KeepsKempt w (w.onGraph (·.switchOff c)) := by
  refine SameRegistry.keepsKempt (.onGraph (.switchOff w.graph c)) (fun _ hs => ?_) fun hw O hO => ?_
  · have hoff : ((w.graph.withdrawFromParent c).modifyContext c
        ({ · with propagates := false })).Sorted :=
      (hs.withdrawFromParent c).modifyContext (fun _ => rfl) (fun _ _ => id) fun _ _ => id
    exact hoff
  · exact hO.stopPropagating hw.tree

end Workspace

namespace Edit

open Workspace ScopeGraph.Graph Outline

theorem keepsKempt_addDeclaration (c : ContextId) (d : DeclId) :
    Follows KeepsKempt (addDeclaration c d) :=
  fun w => after_addDeclaration (.refl w) fun _ _ hc hd _ => keepsKempt_moveDeclaration hc hd

theorem keepsKempt_removeDeclaration (c : ContextId) (d : DeclId) :
    Follows KeepsKempt (removeDeclaration c d) :=
  fun w => after_removeDeclaration (.refl w) fun _ _ _ hd hc => keepsKempt_dropDeclaration hd hc

theorem keepsKempt_setDeclarationContext (d : DeclId) (c : Option ContextId) :
    Follows KeepsKempt (setDeclarationContext d c) := by
  cases c with
  | some c => exact (keepsKempt_addDeclaration c d).bind fun _ => follows_pure ()
  | none =>
    refine (follows_needDeclaration d).bind fun data => ?_
    cases data.context with
    | none => exact follows_pure ()
    | some c => exact (keepsKempt_removeDeclaration c d).bind fun _ => follows_pure ()

theorem keepsKempt_rename (d : DeclId) (name : Ident) : Follows KeepsKempt (rename d name) :=
  fun w => after_rename (.refl w) fun _ hd _ => keepsKempt_renameDeclaration hd name

theorem keepsKempt_setRange (d : DeclId) (range : Span) :
    Follows KeepsKempt (setRange d range) := by
  intro w
  refine (sameRegistry_setRange d range w).keepsKempt (fun hw hs => ?_) fun _ O hO => ?_
  · exact after_setRange (P := fun w => w.graph.Sorted) hs fun _ hd _ =>
      sorted_placeDeclaration hd range hw hs
  · exact after_setRange (P := fun w => w.graph.Shown O) hO fun data _ _ =>
      shown_placeDeclaration data range hO

theorem keepsKempt_deleteDeclaration (d : DeclId) : Follows KeepsKempt (deleteDeclaration d) :=
  fun w => after_deleteDeclaration (.refl w) fun _ hd => keepsKempt_discard hd

theorem keepsKempt_clearDeclarations (c : ContextId) :
    Follows KeepsKempt (clearDeclarations c) := by
  refine follows_graph.bind fun g => Follows.bind (follows_forEach (fun d => ?_) _) fun _ =>
    follows_pure _
  exact (keepsKempt_removeDeclaration c d).bind fun _ => follows_pure ()

theorem keepsKempt_newDeclaration {made : Declaration} (hcontext : made.context = none)
    (hkey : made.key = none) : Follows KeepsKempt (newDeclaration made) := by
  intro w s hs
  have htree : SameTree w.graph.outline (w.graph.insertDeclaration made).outline := .refl _
  exact ⟨hs.insertDeclaration made hcontext hkey, htree.sameBranches.descends⟩

theorem keepsKempt_declare (c : ContextId) (name : Ident) (range : Span) (kind : DeclKind) :
    Follows KeepsKempt (declare c name range kind) := by
  unfold declare
  refine (follows_needContext c).bind fun _ => (keepsKempt_newDeclaration rfl rfl).bind fun d => ?_
  exact (keepsKempt_addDeclaration c d).bind fun _ => follows_pure d

/-! ## 3. Edits of contexts -/

theorem keepsKempt_setKind (c : ContextId) (kind : ContextKind) :
    Follows KeepsKempt (setKind c kind) := by
  refine fun w => after_setKind (.refl w) fun _ _ _ =>
    KeepsKempt.trans ?_ (settles_syncContext _ c).keepsKempt
  refine keepsKempt_of_sameStock (.modifyContext _ c fun _ => rfl) fun hw => ?_
  exact consistent_modifyContext hw (v := ({ · with kind := kind })) (fun _ => rfl) (fun _ => rfl)
    (fun _ => rfl) fun _ => rfl

theorem keepsKempt_setScopeName (c : ContextId) (name : QualName) :
    Follows KeepsKempt (setScopeName c name) := by
  intro w
  have hset : KeepsKempt w (w.onGraph (·.modifyContext c ({ · with scopeName := name }))) := by
    refine keepsKempt_of_sameStock (.modifyContext _ c fun _ => rfl) fun hw => ?_
    exact consistent_modifyContext hw (v := ({ · with scope := name.path })) (fun _ => rfl)
      (fun _ => rfl) (fun _ => rfl) fun _ => rfl
  exact after_setScopeName (.refl w) (fun _ _ _ => hset) fun _ _ _ =>
    hset.trans (settles_syncSubtree _ c).keepsKempt

theorem keepsKempt_setPropagates (c : ContextId) (on : Bool) :
    Follows KeepsKempt (setPropagates c on) :=
  fun w => after_setPropagates (.refl w) (fun _ hc hoff => keepsKempt_switchOn hc hoff)
    fun _ _ _ => keepsKempt_switchOff w c

theorem keepsKempt_removeChild (p c : ContextId) : Follows KeepsKempt (removeChild p c) := by
  refine fun w => after_removeChild (.refl w) fun parent hp hc => ?_
  have hcut : KeepsKempt w (w.onGraph (·.unlinkChild p c)) := by
    intro s hs
    obtain ⟨f, hf, _, hparent⟩ := hs.consistent.tree.child (outline_context.mpr ⟨parent, hp, rfl⟩) hc
    have hparent : w.graph.outline.parent? c = some p := (parent?_of_context hf).trans hparent
    refine ⟨hs.unlinkChild hparent, ?_⟩
    show Descends w.graph.outline (w.graph.unlinkChild p c).outline
    rw [outline_unlink]
    refine (regrafts_unlink hparent).descends fun q hq => ?_
    rw [parent?_unlink hparent, if_pos rfl] at hq
    cases hq
  unfold abandon
  dsimp only
  split
  · exact hcut.trans (keepsKempt_registerSubtree _ c false)
  · exact hcut

theorem keepsKempt_addChild (p c : ContextId) : Follows KeepsKempt (addChild p c) := by
  intro w
  have hwarn : ∀ x, KeepsKempt w (w.warn x) := fun x => (Beside.warn w x).keepsKempt
  refine after_addChild (.refl w) (hwarn _) fun parent child hp hc hanon _ hfree => ?_
  have hgraft : ∀ w₀ : Workspace, w₀.graph = w.graph → KeepsKempt w₀ (((whenSome child.parent
      (fun q w => w.onGraph (·.unlinkChild q c)) w₀).onGraph (·.linkChild p c)).registerSubtree c
        parent.registered) := by
    intro w₀ he
    rw [← he] at hp hc hfree
    refine KeepsKempt.trans (fun s hs => ?_) (keepsKempt_registerSubtree _ c _)
    obtain ⟨hgraft, _, _, hparent⟩ := grafted hs.consistent.tree hp hc hanon hfree
    refine ⟨kempt_grafted hs hp hc hanon hfree, hgraft.descends fun q hq => ?_⟩
    cases hparent.symm.trans hq
    rw [outline_context_eq, hp]
    rfl
  unfold adopt
  dsimp only
  split
  · exact hgraft w rfl
  · exact (hwarn _).trans (hgraft _ rfl)

theorem keepsKempt_registerTop (t : TopId) (registered : Bool) : Follows KeepsKempt
    (needFile t >>= fun _ => update (·.registerSubtree t.context registered)) :=
  (follows_needFile t).bind fun _ =>
    follows_update fun w => keepsKempt_registerSubtree w t.context registered

end Edit

/-! ## 4. Teardowns -/

namespace Workspace

open ScopeGraph.Graph Outline

variable {w w' : Workspace} {s : Multiset Origin} {c : ContextId} {data : Context}
  {S : ContextId → Prop}

theorem TeardownStep.keepsKempt (h : TeardownStep S w w') : KeepsKempt w w' := by
  cases h with
  | unimport => exact (Beside.unimport w _ _ _).keepsKempt
  | clearUses => exact (Beside.clearUses w _).keepsKempt
  | sever _ hc =>
    intro s hs
    obtain ⟨hconsistent, _, _, _, hstock⟩ := severs hs.consistent hc
    exact ⟨hs.of_sameStock hstock hconsistent, hstock.descends⟩
  | discard _ hd _ => exact keepsKempt_discard hd
  | release _ hbare hnamed =>
    intro s hs
    have hkempt := kempt_release hs hbare
    rw [Context.shed_of_named hnamed, Multiset.add_zero] at hkempt
    exact ⟨hkempt, (released hs.consistent hbare).2.1.descends⟩

/-- **A teardown on its way makes no surplus.** -/
theorem TeardownSteps.keepsKempt (h : TeardownSteps S w w') : KeepsKempt w w' := by
  induction h with
  | refl => exact .refl _
  | tail _ hstep ih => exact ih.trans hstep.keepsKempt

theorem kemptAfter_release (h : w.graph.Kempt s) (hteardown : w.TeardownSteps S w')
    (hbare : w'.Bare c data) :
    KemptAfter w (w'.release c data) (s + data.shed) := by
  have hw' := hteardown.keepsKempt s h
  obtain ⟨_, hprunes, _⟩ := released hw'.kempt.consistent hbare
  exact ⟨kempt_release hw'.kempt hbare, hw'.descends.trans hprunes.descends⟩

end Workspace

namespace Edit

open Workspace ScopeGraph.Graph Outline

variable {w : Workspace} {s : Multiset Origin} {c : ContextId}

/-- A context that is not anonymous goes without a surplus. -/
theorem kemptAfter_deleteNamed (h : w.graph.Kempt s)
    (hnamed : ∀ f, w.graph.outline.context c = some f → f.anonymous = false) :
    KemptAfter w ((deleteContext c).after w) s := by
  refine after_deleteContext (P := (KemptAfter w · s)) h.consistent (fun _ => ⟨h, .refl _⟩)
    fun w' data hteardown hbare => ?_
  have hanon : data.anonymous = false := by
    obtain ⟨f, hf, _, hsame, _⟩ :=
      (hteardown.prunes h.consistent).context (outline_context.mpr ⟨data, hbare.context, rfl⟩)
    exact hsame.symm.trans (hnamed f hf)
  have hkempt := kemptAfter_release h hteardown hbare
  rw [Context.shed_of_named hanon, Multiset.add_zero] at hkempt
  exact hkempt

/-- What is left after a deletion is anonymous if it was. -/
theorem anonymous_deleteContext (hw : w.graph.Consistent) {x : ContextId} {f' : Form}
    (hx : ((deleteContext c).after w).graph.outline.context x = some f') :
    ∃ f, w.graph.outline.context x = some f ∧ f.anonymous = f'.anonymous := by
  revert hx
  refine after_deleteContext (P := fun w₁ => w₁.graph.outline.context x = some f' →
    ∃ f, w.graph.outline.context x = some f ∧ f.anonymous = f'.anonymous) hw
    (fun _ hx => ⟨f', hx, rfl⟩) fun w' data hteardown hbare hx => ?_
  obtain ⟨_, hprunes', _⟩ := released (hteardown.consistent hw) hbare
  obtain ⟨f₁, hf₁, _, he₁, _⟩ := hprunes'.context hx
  obtain ⟨f, hf, _, he, _⟩ := (hteardown.prunes hw).context hf₁
  exact ⟨f, hf, he.trans he₁⟩

/-- Children are not anonymous, so deleting them makes no surplus. -/
theorem kemptAfter_deleteChildren (keep : List Node) (children : List ContextId)
    (h : w.graph.Kempt s) (hnamed : ∀ z ∈ children, ∀ f, w.graph.outline.context z = some f →
      f.anonymous = false) : KemptAfter w ((forEach (fun child => do
        if .context child ∉ keep then
          deleteContext child) children).after w) s := by
  induction children generalizing w with
  | nil => exact ⟨h, .refl _⟩
  | cons z rest ih =>
    let one : Edit Unit := if .context z ∉ keep then deleteContext z else pure ()
    have hone : KemptAfter w (one.after w) s ∧ ∀ x f', (one.after w).graph.outline.context x = some f' →
        ∃ f, w.graph.outline.context x = some f ∧ f.anonymous = f'.anonymous := by
      show KemptAfter w (Edit.after (if .context z ∉ keep then deleteContext z else pure ()) w) s ∧ _
      by_cases hz : Node.context z ∉ keep
      · simp only [one, if_pos hz]
        exact ⟨kemptAfter_deleteNamed h (hnamed z List.mem_cons_self), fun x f' hx =>
          anonymous_deleteContext h.consistent hx⟩
      · simp only [one, if_neg hz]
        exact ⟨⟨h, .refl _⟩, fun x f' hx => ⟨f', hx, rfl⟩⟩
    show KemptAfter w ((one >>= fun _ => forEach _ rest).after w) s
    rw [after_bind]
    unfold after at hone
    cases he : one w with
    | error x w₁ =>
      rw [he] at hone
      exact hone.1
    | ok a w₁ =>
      rw [he] at hone
      refine hone.1.trans (ih hone.1.kempt fun z' hz' f' hf' => ?_)
      obtain ⟨f, hf, hsame⟩ := hone.2 z' f' hf'
      exact hsame.symm.trans (hnamed z' (List.mem_cons_of_mem _ hz') f hf)

theorem keepsKempt_clean (c : ContextId) (keep : List Node) :
    Follows KeepsKempt (clean c keep) := by
  refine follows_graph.bind fun g => Follows.bind (follows_forEach (fun d w => ?_) _) fun _ w =>
    related_needContext fun data hc s hs => ?_
  · split
    · exact keepsKempt_deleteDeclaration d w
    · exact .refl w
  · refine kemptAfter_deleteChildren keep data.children hs fun z hz f hf => ?_
    obtain ⟨f', hf', hanon, _⟩ := hs.consistent.tree.child (outline_context.mpr ⟨data, hc, rfl⟩) hz
    cases hf.symm.trans hf'
    exact hanon

end Edit

/-! ## 5. Stranded names -/

namespace Graph

open Outline

variable {g : Graph} {s : Multiset Origin} {c p : ContextId}

/-- Whether the deletion of a context strands names: the context is anonymous and
    passes names on to a parent that is there, and an anonymous context inside it
    passes names on to it. -/
def strands (g : Graph) (c : ContextId) : Bool :=
  (g.context? c).any (fun data =>
    data.anonymous && data.propagates && data.parent.any g.hasContext) &&
  g.contexts.entries.any fun k => k.2.anonymous && k.2.propagates &&
    decide (k.2.parent = some c) && !k.2.locals.index.pairs.isEmpty

theorem strands_of_inner {data inner : Context} {k : ContextId} (hc : g.context? c = some data)
    (hanon : data.anonymous = true) (hon : data.propagates = true) (hp : data.parent = some p)
    (hlive : (g.context? p).isSome) (hk : g.context? k = some inner)
    (hkanon : inner.anonymous = true) (hkon : inner.propagates = true)
    (hkp : inner.parent = some c) (hnames : inner.locals.index.pairs ≠ []) : g.strands c = true := by
  have hparent : g.hasContext p = true := hlive
  unfold strands
  rw [Bool.and_eq_true]
  constructor
  · simp [hc, hanon, hon, hp, hparent]
  · refine List.any_eq_true.mpr ⟨(k, inner), Store.mem_entries_iff.mpr hk, ?_⟩
    simp [hkanon, hkon, hkp, hnames]

/-- A surplus that starts in a context that is gone comes nowhere. -/
theorem Kempt.forget {names : Multiset (Ident × DeclId)} (h : g.Kempt (s + starting p names))
    (hp : g.context? p = none) : g.Kempt s := by
  obtain ⟨P, hP, hshown⟩ := h.shown
  refine ⟨h.consistent, h.sorted, P, hP, hshown.of_reaching fun a data ha => ?_⟩
  have hnone : ¬ Relation.ReflTransGen g.Feeds p a := by
    intro hreach
    rcases Relation.ReflTransGen.cases_head hreach with e | ⟨y, ⟨_, hdata, _⟩, _⟩
    · rw [e, ha] at hp
      cases hp
    · rw [hp] at hdata
      cases hdata
  rw [← Multiset.add_assoc, reaching_add _ (starting p names), reaching_starting_of_not hnone,
    Multiset.add_zero]

/-- Where there is no surplus, what comes into the index of a context that holds
    nothing came into the index of one that feeds it. -/
theorem Kempt.feeder (h : g.Kempt 0) {data : Context} (hc : g.context? c = some data)
    (hown : data.locals.ordered = []) {n : Ident × DeclId} (hn : n ∈ data.locals.names) :
    ∃ x y, g.outline.start? n.2 = some (x, n) ∧ g.Reaches x y ∧ g.Feeds y c := by
  obtain ⟨P, hP, hshown⟩ := h.shown
  rw [Multiset.add_zero] at hshown
  rw [hshown.names hc] at hn
  obtain ⟨x, hx, hreach⟩ := mem_reaching.mp hn
  have hstart := (hP.mem _).mp hx
  rcases Relation.ReflTransGen.cases_tail hreach with e | ⟨y, hxy, hyc⟩
  · -- what starts in the context is held by it
    obtain ⟨f, hf, he⟩ := Option.bind_eq_some_iff.mp hstart
    obtain ⟨z, hz, he⟩ := Option.map_eq_some_iff.mp he
    have hzx : z = x := congrArg Prod.fst he
    obtain ⟨fz, hfz, hmem⟩ := h.consistent.holds.holder hf hz
    rw [hzx, ← e] at hfz
    cases (outline_context.mpr ⟨data, hc, rfl⟩).symm.trans hfz
    have hmem : n.2 ∈ data.locals.ordered := hmem
    rw [hown] at hmem
    exact absurd hmem List.not_mem_nil
  · exact ⟨x, y, hstart, hxy, hyc⟩

/-- Without a surplus, an index holds the name of every declaration that leads to
    it. -/
theorem Kempt.mem_names (h : g.Kempt s) {x : ContextId} {data : Context}
    (hc : g.context? c = some data) {n : Ident × DeclId}
    (hstart : g.outline.start? n.2 = some (x, n)) (hreach : g.Reaches x c) :
    n ∈ data.locals.names := by
  obtain ⟨P, hP, hshown⟩ := h.shown
  rw [hshown.names hc, reaching_add]
  exact Multiset.mem_add.mpr (.inl (mem_reaching.mpr ⟨x, (hP.mem _).mpr hstart, hreach⟩))

end Graph

namespace Workspace

open ScopeGraph.Graph Outline

variable {w w' : Workspace} {c : ContextId} {data : Context}

/-- **A deletion that strands no names makes no surplus.** -/
theorem kempt_release_zero (h : w.graph.Kempt 0)
    (hteardown : w.TeardownSteps (w.graph.outline.Below c) w') (hbare : w'.Bare c data)
    (hstrands : w.graph.strands c = false) : (w'.release c data).graph.Kempt 0 := by
  have h' := (hteardown.keepsKempt 0 h).kempt
  have hkempt := kempt_release h' hbare
  have hprunes := hteardown.prunes h.consistent
  have hfeeds : ∀ x y, w'.graph.Feeds x y → w.graph.Feeds x y := by
    rintro x y ⟨data', hdata', hon, hy⟩
    obtain ⟨data₀, hdata₀, hguise, _⟩ := hteardown.keepsGuise x data' hdata'
    have hsame : data₀.propagates = data'.propagates := congrArg (fun v => v.2.2.2.2.1) hguise
    obtain ⟨f₀, hf₀, hparent, _⟩ := hprunes.context (outline_context.mpr ⟨data', hdata', rfl⟩)
    cases (outline_context.mpr ⟨data₀, hdata₀, rfl⟩).symm.trans hf₀
    exact ⟨data₀, hdata₀, hsame.trans hon, hparent.trans hy⟩
  by_cases hshed : data.shed = 0
  · rw [hshed] at hkempt
    exact hkempt
  -- the context is anonymous and passes its names on
  have hanon : data.anonymous = true := by
    by_contra hnamed
    exact hshed (Context.shed_of_named (Bool.eq_false_iff.mpr hnamed))
  obtain ⟨p, hcp⟩ : ∃ p, (w'.graph.loosen c data).Feeds c p := by
    by_contra hends
    exact hshed (shed_eq_zero hbare.context (not_exists.mp hends))
  obtain ⟨hsame, hstart⟩ := shed_of_feeds hbare.context hcp
  rw [hsame] at hcp
  rw [hstart] at hkempt
  cases hp : (w'.release c data).graph.context? p with
  | none => exact hkempt.forget hp
  | some parent =>
    -- a name that it has came from an anonymous context inside it
    have hnone : data.locals.names = 0 := by
      refine Multiset.eq_zero_of_forall_notMem fun n hn => ?_
      obtain ⟨x, y, hx, hxy, hyc⟩ := h'.feeder hbare.context hbare.own hn
      have hyc' := hfeeds y c hyc
      obtain ⟨inner', hinner', _, hparent'⟩ := hyc
      obtain ⟨inner, hinner, hkon, hkp⟩ := hyc'
      obtain ⟨outer, houter, hon, hpp⟩ := hfeeds c p hcp
      have hform' : w'.graph.outline.context y = some inner'.form :=
        outline_context.mpr ⟨inner', hinner', rfl⟩
      have hyanon' : inner'.anonymous = true := by
        by_contra hnamed
        obtain ⟨fc, hfc, hmem⟩ :=
          h'.consistent.tree.parent hform' (Bool.eq_false_iff.mpr hnamed) hparent'
        cases (outline_context.mpr ⟨data, hbare.context, rfl⟩).symm.trans hfc
        have hmem : y ∈ data.children := hmem
        rw [hbare.children] at hmem
        exact List.not_mem_nil hmem
      have hsame : ∀ {z : ContextId} {old new : Context}, w.graph.context? z = some old →
          w'.graph.context? z = some new → new.anonymous = true → old.anonymous = true := by
        intro z old new hold hnew hyes
        obtain ⟨f, hf, _, he, _⟩ := hprunes.context (outline_context.mpr ⟨new, hnew, rfl⟩)
        cases (outline_context.mpr ⟨old, hold, rfl⟩).symm.trans hf
        exact he.trans hyes
      have hlive : (w.graph.context? p).isSome := by
        obtain ⟨_, hprunes', _⟩ := released h'.consistent hbare
        have hboth := hprunes'.descends.live p
        have hfirst := hprunes.descends.live p
        simp only [outline_context_eq, Option.isSome_map] at hboth hfirst
        exact hfirst (hboth (by rw [hp]; rfl))
      have hnames : n ∈ inner.locals.names := by
        have hstart' : w.graph.outline.start? n.2 = some (x, n) := by
          obtain ⟨f, hf, he⟩ := Option.bind_eq_some_iff.mp hx
          exact Option.bind_eq_some_iff.mpr ⟨f, (hprunes.declaration hf).1, he⟩
        exact h.mem_names hinner hstart' (Relation.ReflTransGen.mono hfeeds _ _ hxy)
      have hyes := strands_of_inner houter (hsame houter hbare.context hanon) hon hpp hlive hinner
        (hsame hinner hinner' hyanon') hkon hkp fun e => by
          unfold Locals.names at hnames
          rw [e] at hnames
          exact Multiset.notMem_zero _ hnames
      exact Bool.false_ne_true (hstrands.symm.trans hyes)
    rw [hnone] at hkempt
    exact hkempt

end Workspace

/-! ## 6. Changes -/

namespace Workspace

open ScopeGraph.Graph Outline

/-- Whether a call strands names. -/
def strandsNames (w : Workspace) : Call → Bool
  | .change (.deleteContext c) => w.graph.strands c
  | _ => false

/-- No call of a sequence strands names. -/
def StrandsNoNames (w : Workspace) : List Call → Prop
  | [] => True
  | call :: rest => w.strandsNames call = false ∧ (call.apply w).StrandsNoNames rest

instance decidableStrandsNoNames :
    ∀ (w : Workspace) (calls : List Call), Decidable (w.StrandsNoNames calls)
  | _, [] => isTrue trivial
  | w, call :: rest =>
    have := decidableStrandsNoNames (call.apply w) rest
    inferInstanceAs (Decidable (w.strandsNames call = false ∧ (call.apply w).StrandsNoNames rest))

/-- The graph is kempt, and parents were given out. -/
structure Kept (w : Workspace) (s : Multiset Origin) : Prop where
  kempt : w.graph.Kempt s
  anchored : w.graph.Anchored

variable {w : Workspace} {s : Multiset Origin}

theorem kept_newContext (made : Context) (hw : w.Kept s) (htidy : w.graph.contexts.Tidy)
    (hf : w.graph.outline.Fresh made.form) (hkey : made.key = none) (hlocals : made.locals = {})
    (hoff : made.propagates = false) : ((Edit.newContext made).after w).Kept
      (s.filter (·.1 ≠ w.graph.nextContext made)) :=
  ⟨hw.kempt.insertContext made htidy hw.anchored hf hkey hlocals hoff,
    hw.anchored.insertContext made htidy hf⟩

end Workspace

namespace Edit

open Workspace ScopeGraph.Graph Outline

variable {w : Workspace} {s : Multiset Origin} (hw : w.Kept s) (htidy : w.graph.contexts.Tidy)

include hw htidy

theorem kept_createTop (file : FileId) (range : Span) :
    ∃ s', ((createTop file range).after w).Kept s' ∧ (s = 0 → s' = 0) := by
  refine ⟨_, kept_newContext { range := range, kind := .global, file := some (.new file) } hw htidy
    ⟨rfl, rfl, rfl, nofun, fun _ => ⟨rfl, rfl⟩⟩ rfl rfl rfl, ?_⟩
  rintro rfl
  exact Multiset.filter_zero _

theorem kept_createAnonymous (p : ContextId) (range : Span) :
    ∃ s', ((createAnonymous p range).after w).Kept s' ∧ (s = 0 → s' = 0) := by
  unfold createAnonymous after
  rw [needContext_bind]
  cases hp : w.graph.context? p with
  | none => exact ⟨s, hw, id⟩
  | some parent =>
    refine ⟨_, kept_newContext { range := range, parent := some p, anonymous := true } hw htidy
      ⟨rfl, rfl, rfl, fun q hq => ⟨rfl, ?_⟩, nofun⟩ rfl rfl rfl, ?_⟩
    · cases hq
      exact Option.isSome_iff_exists.mpr ⟨_, outline_context.mpr ⟨parent, hp, rfl⟩⟩
    · rintro rfl
      exact Multiset.filter_zero _

theorem kept_createContext (p : ContextId) (range : Span) :
    ∃ s', ((createContext p range).after w).Kept s' ∧ (s = 0 → s' = 0) := by
  cases hp : w.graph.context? p with
  | none =>
    unfold createContext after
    rw [needContext_bind, hp]
    exact ⟨s, hw, id⟩
  | some parent =>
    rw [createContext_after hp]
    have hmade := kept_newContext { range := range } hw htidy ⟨rfl, rfl, rfl, nofun, nofun⟩ rfl rfl rfl
    have hkempt := keepsKempt_addChild p (w.graph.nextContext { range := range }) _ _ hmade.kempt
    refine ⟨_, ⟨hkempt.kempt, hmade.anchored.descend hkempt.descends (issued_addChild p _ _)⟩, ?_⟩
    rintro rfl
    exact Multiset.filter_zero _

omit htidy in
/-- **A deleted context may leave a surplus behind**, but not if it strands no
    names. -/
theorem kemptAfter_deleteContext (c : ContextId) :
    ∃ s', KemptAfter w ((deleteContext c).after w) s' ∧
    (s = 0 → w.graph.strands c = false → s' = 0) := by
  refine after_deleteContext (P := fun w' => ∃ s', KemptAfter w w' s' ∧
    (s = 0 → w.graph.strands c = false → s' = 0)) hw.kempt.consistent
    (fun _ => ⟨s, ⟨hw.kempt, .refl _⟩, fun h _ => h⟩) fun w' data hteardown hbare => ?_
  have hkempt := kemptAfter_release hw.kempt hteardown hbare
  by_cases hzero : s = 0 ∧ w.graph.strands c = false
  · obtain ⟨rfl, hstrands⟩ := hzero
    refine ⟨0, ⟨?_, hkempt.descends⟩, fun _ _ => rfl⟩
    exact kempt_release_zero hw.kempt hteardown hbare hstrands
  · exact ⟨_, hkempt, fun h₁ h₂ => absurd ⟨h₁, h₂⟩ hzero⟩

end Edit

namespace Change

open Workspace

/-- **Every change keeps a workspace kempt**, unless it makes a context or deletes one. -/
theorem keepsKempt {e : Change} (hmake : e.makesContext = false) (hdelete : ∀ c, e ≠ .deleteContext c)
    (w : Workspace) : KeepsKempt w (e.apply w) := by
  by_cases hbeside : e.isBeside = true
  · exact (beside hbeside w).keepsKempt
  cases e with
  | createTop | createContext | createAnonymous => cases hmake
  | deleteContext c => exact absurd rfl (hdelete c)
  | addChild p c => exact Edit.keepsKempt_addChild p c w
  | removeChild p c => exact Edit.keepsKempt_removeChild p c w
  | setKind c kind => exact Edit.keepsKempt_setKind c kind w
  | setScopeName c name => exact Edit.keepsKempt_setScopeName c name w
  | setPropagates c on => exact Edit.keepsKempt_setPropagates c on w
  | declare c name range kind => exact Edit.keepsKempt_declare c name range kind w
  | addDeclaration c d => exact Edit.keepsKempt_addDeclaration c d w
  | removeDeclaration c d => exact Edit.keepsKempt_removeDeclaration c d w
  | setDeclarationContext d c => exact Edit.keepsKempt_setDeclarationContext d c w
  | rename d name => exact Edit.keepsKempt_rename d name w
  | setRange d range => exact Edit.keepsKempt_setRange d range w
  | register t => exact Edit.keepsKempt_registerTop t true w
  | unregister t => exact Edit.keepsKempt_registerTop t false w
  | deleteDeclaration d => exact Edit.keepsKempt_deleteDeclaration d w
  | clearDeclarations c => exact Edit.keepsKempt_clearDeclarations c w
  | clean c keep => exact Edit.keepsKempt_clean c keep w
  | _ => exact absurd rfl hbeside

/-- **One change keeps a kempt graph kempt**, and makes no surplus if it strands
    no names. -/
theorem kept (e : Change) {w : Workspace} {s : Multiset Origin} (hw : w.Faithful)
    (hages : w.Ages (e.apply w)) (h : w.Kept s) : ∃ s', (e.apply w).Kept s' ∧
      (s = 0 → w.strandsNames (.change e) = false → s' = 0) := by
  have htidy := hw.linked.tidy
  have hissued : ∀ x, w.graph.contexts.Issued x → (e.apply w).graph.contexts.Issued x :=
    fun x hx => (e.evolves hw.linked.toWired).issued hages hx
  by_cases hmake : e.makesContext = true
  · have hmade : ∃ s', (e.apply w).Kept s' ∧ (s = 0 → s' = 0) := by
      cases e with
      | createTop file range => exact Edit.kept_createTop h htidy file range
      | createContext p range => exact Edit.kept_createContext h htidy p range
      | createAnonymous p range => exact Edit.kept_createAnonymous h htidy p range
      | _ => cases hmake
    obtain ⟨s', hs', hzero⟩ := hmade
    exact ⟨s', hs', fun h _ => hzero h⟩
  · by_cases hdelete : ∃ c, e = .deleteContext c
    · obtain ⟨c, rfl⟩ := hdelete
      obtain ⟨s', hs', hzero⟩ := Edit.kemptAfter_deleteContext h c
      exact ⟨s', ⟨hs'.kempt, h.anchored.descend hs'.descends hissued⟩, hzero⟩
    · have hkempt := keepsKempt (Bool.eq_false_iff.mpr hmake) (not_exists.mp hdelete) w s h.kempt
      exact ⟨s, ⟨hkempt.kempt, h.anchored.descend hkempt.descends hissued⟩, fun h _ => h⟩

end Change

/-- **One call keeps a kempt graph kempt.** -/
theorem Call.kept (call : Call) {w : Workspace} {s : Multiset Origin} (hw : w.Faithful)
    (hages : w.Ages (call.apply w)) (h : w.Kept s) : ∃ s', (call.apply w).Kept s' ∧
      (s = 0 → w.strandsNames call = false → s' = 0) := by
  cases call with
  | change e => exact e.kept hw hages h
  | question q =>
    have hgraph := (q.keeps (fun s t => Graph.keeps_hopTowards s t) hw.coherent).2
    exact ⟨s, ⟨hgraph ▸ h.kempt, hgraph ▸ h.anchored⟩, fun h _ => h⟩

/-! ## 7. Sequences of calls -/

namespace Workspace

theorem kept_empty (limits : Limits) : (empty limits).Kept 0 where
  kempt :=
    { consistent := (settled_empty limits).orderly.toConsistent
      sorted := ⟨fun _ => List.Pairwise.nil, fun _ => List.Pairwise.nil⟩
      shown := by
        refine ⟨0, ⟨Multiset.nodup_zero, fun x => ?_⟩, nofun, nofun⟩
        exact ⟨fun h => absurd h (Multiset.notMem_zero x), nofun⟩ }
  anchored := (settled_empty limits).anchored

/-- **After every sequence of calls the graph is kempt**, and without a surplus if
    no call strands names. -/
theorem kept_run {limits : Limits} {calls : List Call} (hfrees : (empty limits).FewFrees calls) :
    ∃ s, ((empty limits).run calls).Kept s ∧ ((empty limits).StrandsNoNames calls → s = 0) := by
  let spared := (empty limits).StrandsNoNames calls
  have hrun := run_invariant (I := fun w calls => ∃ s, w.Kept s ∧
    (spared → s = 0 ∧ w.StrandsNoNames calls)) ?_ calls _ (faithful_empty limits) hfrees.lasts
    ⟨0, kept_empty limits, fun h => ⟨rfl, h⟩⟩
  · obtain ⟨s, hs, hzero⟩ := hrun.2
    exact ⟨s, hs, fun h => (hzero h).1⟩
  · rintro w call rest hw hages ⟨s, hs, hzero⟩
    obtain ⟨s', hs', hzero'⟩ := call.kept hw hages hs
    exact ⟨s', hs', fun h => ⟨hzero' (hzero h).1 (hzero h).2.1, (hzero h).2.2⟩⟩

end Workspace

end ScopeGraph
