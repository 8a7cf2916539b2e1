/-
  File:      ScopeGraph/Proofs/Cleaning.lean
  Subject:   What is left of a context that is cleaned.

  When a file is read again, what was not met again goes: of a context, the own
  declarations and the children that are not to be kept. The lists that say what is
  to go are read before anything goes, so that nothing on them may go with something
  else on them, and nothing that is kept may go with them.

  * `Workspace.DeletesAll`: declarations go, and trees of contexts; lists lose what is
    gone and nothing else. Deletions one after another are one (`DeletesAll.trans`);
  * `Workspace.deletesAll_clean`: that is what cleaning does;
  * `Workspace.Cleaning`: what it comes to for the context and what is inside.
-/
import ScopeGraph.Proofs.Deletion

namespace ScopeGraph

/-! ## 1. What can go one after the other -/

namespace Graph

open Outline

/-- Different declarations of the graph. -/
structure Several (g : Graph) (ds : List DeclId) : Prop where
  nodup : ds.Nodup
  live : ∀ d ∈ ds, g.hasDeclaration d = true

/-- Different contexts of the graph, none of them below another. -/
structure Apart (g : Graph) (zs : List ContextId) : Prop where
  nodup : zs.Nodup
  live : ∀ z ∈ zs, g.hasContext z = true
  apart : ∀ z ∈ zs, ∀ z' ∈ zs, z' ≠ z → ¬ g.TreeOf z z'

variable {g : Graph} {c x : ContextId}

theorem Several.of_cons {d : DeclId} {ds : List DeclId} (h : g.Several (d :: ds)) : g.Several ds :=
  ⟨h.nodup.of_cons, fun _ hd => h.live _ (List.mem_cons_of_mem _ hd)⟩

theorem Apart.of_cons {z : ContextId} {zs : List ContextId} (h : g.Apart (z :: zs)) : g.Apart zs :=
  ⟨h.nodup.of_cons, fun _ hy => h.live _ (List.mem_cons_of_mem _ hy),
    fun _ hy _ hy' => h.apart _ (List.mem_cons_of_mem _ hy) _ (List.mem_cons_of_mem _ hy')⟩

namespace Consistent

theorem hasContext_treeOf (hg : g.Consistent) (hc : g.hasContext c = true) (hx : g.TreeOf c x) :
    g.hasContext x = true := by
  rcases Relation.ReflTransGen.cases_tail hx with e | ⟨p, _, hstep⟩
  · exact e ▸ hc
  · exact hg.hasContext_child hstep

/-- A context is not in the tree of a child. -/
theorem not_treeOf_child (hg : g.Consistent) {z : ContextId} (hz : z ∈ g.children c) :
    ¬ g.TreeOf z c :=
  fun htree => hg.tree.ne_of_below (treeOf_iff.mp htree) (mem_children_iff.mp hz) rfl

/-- Of two children of a context, none is below the other. -/
theorem apart (hg : g.Consistent) {z z' : ContextId} (hz : z ∈ g.children c)
    (hz' : z' ∈ g.children c) (hne : z' ≠ z) : ¬ g.TreeOf z z' := by
  intro htree
  have habove := hg.tree.below_parent (treeOf_iff.mp htree) hne (mem_children_iff.mp hz')
  exact hg.not_treeOf_child hz (treeOf_iff.mpr habove)

/-- Nothing is in the trees of two children of a context. -/
theorem disjoint (hg : g.Consistent) {z z' : ContextId} (hz : z ∈ g.children c)
    (hz' : z' ∈ g.children c) (hne : z' ≠ z) (hx : g.TreeOf z x) : ¬ g.TreeOf z' x := by
  intro hx'
  rcases hg.tree.listed.below_total (treeOf_iff.mp hx) (treeOf_iff.mp hx') with h | h
  · exact hg.apart hz hz' hne (treeOf_iff.mpr h)
  · exact hg.apart hz' hz (Ne.symm hne) (treeOf_iff.mpr h)

theorem several_localDeclarations (hg : g.Consistent) (c : ContextId) :
    g.Several (g.localDeclarations c) :=
  ⟨nodup_localDeclarations hg.holds c, fun _ hd => hg.hasDeclaration_own hd⟩

theorem apart_children (hg : g.Consistent) (c : ContextId) : g.Apart (g.children c) :=
  ⟨nodup_children hg.tree.matched c, fun _ hz => hg.hasContext_child hz,
    fun _ hz _ hz' => hg.apart hz hz'⟩

end Consistent

end Graph

/-! ## 2. Deletions one after another -/

namespace Workspace

open ScopeGraph.Graph Outline

/-- **Declarations are gone, and contexts with all below them and what these
    declare.** The lists of what is left have lost what is gone. -/
structure DeletesAll (ds : List DeclId) (zs : List ContextId) (w w' : Workspace) : Prop where
  consistent : w'.graph.Consistent
  contexts : ∀ x, w'.graph.hasContext x = true ↔
    w.graph.hasContext x = true ∧ ∀ z ∈ zs, ¬ w.graph.TreeOf z x
  declarations : ∀ d f, w'.graph.outline.declaration d = some f ↔
    w.graph.outline.declaration d = some f ∧ d ∉ ds ∧
      ∀ x, f.context = some x → ∀ z ∈ zs, ¬ w.graph.TreeOf z x
  children : ∀ x, w'.graph.hasContext x = true →
    w'.graph.children x = (w.graph.children x).filter w'.graph.hasContext
  own : ∀ x, w'.graph.hasContext x = true →
    w'.graph.localDeclarations x = (w.graph.localDeclarations x).filter w'.graph.hasDeclaration

namespace DeletesAll

variable {ds ds' : List DeclId} {zs zs' : List ContextId} {w w' w'' : Workspace} {c x : ContextId}

theorem refl (hw : w.graph.Consistent) : DeletesAll [] [] w w where
  consistent := hw
  contexts x := by simp
  declarations d f := by simp
  children x _ := (List.filter_eq_self.mpr fun _ hy => hw.hasContext_child hy).symm
  own x _ := (List.filter_eq_self.mpr fun _ hd => hw.hasDeclaration_own hd).symm

/-- Between what is left the trees are the same. -/
theorem treeOf_iff (h : DeletesAll ds zs w w') (hx : w'.graph.hasContext x = true) :
    w'.graph.TreeOf c x ↔ w.graph.TreeOf c x := by
  constructor
  · refine fun htree => htree.lift id fun p y hy => ?_
    rw [h.children p (hasContext_of_children hy)] at hy
    exact List.mem_of_mem_filter hy
  · intro htree
    induction htree with
    | refl => exact .refl
    | @tail p x hp hstep ih =>
      obtain ⟨_, hout⟩ := (h.contexts x).mp hx
      have hlive : w'.graph.hasContext p = true :=
        (h.contexts p).mpr ⟨hasContext_of_children hstep, fun z hz hzp => hout z hz (hzp.tail hstep)⟩
      refine (ih hlive).tail ?_
      rw [h.children p hlive]
      exact List.mem_filter.mpr ⟨hstep, hx⟩

/-- **One deletion after another is a deletion.** -/
theorem trans (h : DeletesAll ds zs w w') (h' : DeletesAll ds' zs' w' w'') :
    DeletesAll (ds ++ ds') (zs ++ zs') w w'' where
  consistent := h'.consistent
  contexts x := by
    rw [h'.contexts, List.forall_mem_append, ← and_assoc, ← h.contexts]
    refine and_congr_right fun hx => ?_
    simp only [h.treeOf_iff hx]
  declarations d f := by
    rw [h'.declarations, List.mem_append, not_or]
    constructor
    · rintro ⟨hd, hnot', hout'⟩
      obtain ⟨hd₀, hnot, hout⟩ := (h.declarations d f).mp hd
      refine ⟨hd₀, ⟨hnot, hnot'⟩, fun x hx => List.forall_mem_append.mpr ⟨hout x hx, ?_⟩⟩
      exact fun z hz hzx => hout' x hx z hz
        ((h.treeOf_iff (h.consistent.hasContext_holder hd hx)).mpr hzx)
    · rintro ⟨hd₀, ⟨hnot, hnot'⟩, hout⟩
      have hd := (h.declarations d f).mpr ⟨hd₀, hnot, fun x hx z hz =>
        hout x hx z (List.mem_append_left _ hz)⟩
      exact ⟨hd, hnot', fun x hx z hz hzx => hout x hx z (List.mem_append_right _ hz)
        ((h.treeOf_iff (h.consistent.hasContext_holder hd hx)).mp hzx)⟩
  children x hx := by
    have hlive : ∀ y, w''.graph.hasContext y = true → w'.graph.hasContext y = true :=
      fun y hy => ((h'.contexts y).mp hy).1
    rw [h'.children x hx, h.children x (hlive x hx), List.filter_filter]
    refine List.filter_congr fun y _ => ?_
    rw [Bool.and_eq_left_iff_imp]
    exact hlive y
  own x hx := by
    have hlive : ∀ d, w''.graph.hasDeclaration d = true → w'.graph.hasDeclaration d = true := by
      intro d hd
      obtain ⟨f, hf⟩ := hasDeclaration_iff_outline.mp hd
      exact hasDeclaration_iff_outline.mpr ⟨f, ((h'.declarations d f).mp hf).1⟩
    rw [h'.own x hx, h.own x ((h'.contexts x).mp hx).1, List.filter_filter]
    refine List.filter_congr fun d _ => ?_
    rw [Bool.and_eq_left_iff_imp]
    exact hlive d

/-- A context is deleted. -/
theorem of_deletesTree (h : w.DeletesTree c w') : DeletesAll [] [c] w w' where
  consistent := h.consistent
  contexts x := by rw [h.contexts, List.forall_mem_singleton]
  declarations d f := by simp [h.declarations]
  children x hx := by
    obtain ⟨data', hdata'⟩ := hasContext_iff.mp hx
    obtain ⟨data, hdata, hsame⟩ := exists_of_map_eq (h.leaves.contexts x hx) hdata'
    have hchildren : data.children.filter w'.graph.hasContext =
        data'.children.filter w'.graph.hasContext := congrArg (·.2.2.2.2.1) hsame
    have hlive := fun y hy => h.consistent.hasContext_child (p := x) (x := y) hy
    unfold Graph.children at hlive ⊢
    rw [hdata'] at hlive ⊢
    rw [hdata]
    exact (List.filter_eq_self.mpr hlive).symm.trans hchildren.symm
  own x hx := by
    obtain ⟨data', hdata'⟩ := hasContext_iff.mp hx
    obtain ⟨data, hdata, hsame⟩ := exists_of_map_eq (h.leaves.contexts x hx) hdata'
    have hordered : data.locals.ordered = data'.locals.ordered := congrArg (·.2.2.2.2.2.1) hsame
    have hlive := fun d hd => h.consistent.hasDeclaration_own (c := x) (d := d) hd
    unfold localDeclarations at hlive ⊢
    rw [hdata'] at hlive ⊢
    rw [hdata]
    show data'.locals.ordered = data.locals.ordered.filter _
    rw [hordered]
    exact (List.filter_eq_self.mpr hlive).symm

end DeletesAll

variable {w : Workspace} {d : DeclId} {data : Declaration}

theorem children_discard (hd : w.graph.declaration? d = some data) (x : ContextId) :
    (w.discard d data).graph.children x = w.graph.children x := by
  have hstock := (discards hd).stock.context_part (fun s => s.2.2.2.1) x
  have hholder : ∀ holder, ((w.graph.withdraw d holder).context? x).map (·.children) =
      (w.graph.context? x).map (·.children) := by
    intro holder
    cases holder with
    | none => rfl
    | some c =>
      show ((w.graph.detach c d).context? x).map _ = _
      unfold Graph.detach
      rw [hd]
      refine (map_context?_modifyAll (fun _ => ?_) _ x).trans
        (map_context?_modifyContext _ c (fun _ => ?_) x) <;> rfl
  exact congrArg (·.getD []) (hstock.trans (hholder data.context))

theorem localDeclarations_discard (hd : w.graph.declaration? d = some data) (x : ContextId) :
    (w.discard d data).graph.localDeclarations x =
      if data.context = some x then (w.graph.localDeclarations x).erase d
      else w.graph.localDeclarations x := by
  have hstock := (discards hd).stock.context_part (fun s => s.2.2.2.2.ordered) x
  unfold localDeclarations
  refine (congrArg (·.getD []) hstock).trans ?_
  show (((w.graph.withdraw d data.context).context? x).map (·.locals.ordered)).getD [] = _
  cases hc : data.context with
  | none =>
    rw [if_neg nofun]
    rfl
  | some c =>
    have hindex : ((w.graph.withdraw d (some c)).context? x).map (·.locals.ordered) =
        ((w.graph.modifyLocals c (·.displace d)).context? x).map (·.locals.ordered) := by
      show ((w.graph.detach c d).context? x).map _ = _
      unfold Graph.detach
      rw [hd]
      exact map_context?_modifyAll (fun _ => Locals.ordered_dropNames _ _) _ x
    rw [hindex, modifyLocals, context?_modifyContext]
    by_cases hx : x = c
    · subst hx
      rw [if_pos rfl, if_pos rfl]
      cases w.graph.context? x <;> rfl
    · rw [if_neg hx, if_neg fun e => hx (Option.some.inj e).symm]

theorem hasContext_discard (w : Workspace) (d : DeclId) (data : Declaration) (x : ContextId) :
    (w.discard d data).graph.hasContext x = w.graph.hasContext x := by
  show ((w.discard d data).graph.context? x).isSome = (w.graph.context? x).isSome
  rw [context?_discard, Option.isSome_map]
  cases data.context with
  | none => rfl
  | some c => exact (SameNodes.detach w.graph c d).contexts.isSome_get? x

/-- A declaration is deleted. -/
theorem DeletesAll.of_discard (hw : w.graph.Consistent) (hd : w.graph.declaration? d = some data) :
    DeletesAll [d] [] w (w.discard d data) := by
  have hdiscards := discards hd
  have hform : w.graph.outline.declaration d = some data.form := outline_declaration.mpr ⟨data, hd, rfl⟩
  have hw' := hdiscards.consistent hw hform rfl
  have hdeclaration : ∀ d' f, (w.discard d data).graph.outline.declaration d' = some f ↔
      w.graph.outline.declaration d' = some f ∧ d' ≠ d := by
    intro d' f
    by_cases he : d' = d
    · subst he
      rw [outline_declaration_eq, hdiscards.gone]
      simp
    · rw [hdiscards.declaration_of_ne he]
      simp [he]
  refine ⟨hw', fun x => ?_, fun d' f => ?_, fun x hx => ?_, fun x hx => ?_⟩
  · rw [hasContext_discard]
    simp
  · rw [hdeclaration]
    simp
  · rw [children_discard hd]
    refine (List.filter_eq_self.mpr fun y hy => ?_).symm
    rw [hasContext_discard]
    exact hw.hasContext_child hy
  · have hlive : ∀ d' ∈ w.graph.localDeclarations x,
        (w.discard d data).graph.hasDeclaration d' = (d' != d) := by
      intro d' hmem
      obtain ⟨f, hf, _⟩ := hw.declared hmem
      rw [Bool.eq_iff_iff, hasDeclaration_iff_outline]
      simp [hdeclaration, hf]
    rw [localDeclarations_discard hd, List.filter_congr hlive]
    split
    · exact (nodup_localDeclarations hw.holds x).erase_eq_filter d
    · next hnot =>
      refine (List.filter_eq_self.mpr fun d' hmem => ?_).symm
      obtain ⟨f, hf, hholder⟩ := hw.declared hmem
      refine bne_iff_ne.mpr fun he => hnot ?_
      rw [he, hform] at hf
      cases hf
      exact hholder

/-! ## 3. Cleaning -/

/-- **What deletes one item after the other deletesAll them all**, if the items that wait
    can still go when one is gone. -/
theorem deletesAll_forEach {α : Type} (drop : α → Prop) [DecidablePred drop]
    (Ready : Graph → List α → Prop) {delete : α → Edit Unit}
    {ds : α → List DeclId} {zs : α → List ContextId}
    (hskip : ∀ g a rest, Ready g (a :: rest) → Ready g rest)
    (hdelete : ∀ w a rest, w.graph.Consistent → Ready w.graph (a :: rest) →
      ∃ w', delete a w = .ok () w' ∧ DeletesAll (ds a) (zs a) w w' ∧ Ready w'.graph rest)
    (as : List α) (hw : w.graph.Consistent) (hready : Ready w.graph as) :
    ∃ w', Edit.forEach (fun a => if drop a then delete a else pure ()) as w = .ok () w' ∧
      DeletesAll ((as.filter drop).flatMap ds) ((as.filter drop).flatMap zs) w w' := by
  induction as generalizing w with
  | nil => exact ⟨w, rfl, .refl hw⟩
  | cons a rest ih =>
    by_cases hdrop : drop a
    · obtain ⟨w₁, hone, hall, hready₁⟩ := hdelete w a rest hw hready
      obtain ⟨w', hok, hall'⟩ := ih hall.consistent hready₁
      have hfirst : (if drop a then delete a else pure () : Edit Unit) w = .ok () w₁ := by
        rw [if_pos hdrop, hone]
      have hfilter : (a :: rest).filter drop = a :: rest.filter drop := by simp [hdrop]
      refine ⟨w', (Edit.bind_of_ok hfirst).trans hok, ?_⟩
      rw [hfilter, List.flatMap_cons, List.flatMap_cons]
      exact hall.trans hall'
    · obtain ⟨w', hok, hall⟩ := ih hw (hskip w.graph a rest hready)
      have hfirst : (if drop a then delete a else pure () : Edit Unit) w = .ok () w := by
        rw [if_neg hdrop]
        rfl
      have hfilter : (a :: rest).filter drop = rest.filter drop := by simp [hdrop]
      refine ⟨w', (Edit.bind_of_ok hfirst).trans hok, ?_⟩
      rwa [hfilter]

theorem deletesAll_deleteDeclaration {d : DeclId} {ds : List DeclId} (hw : w.graph.Consistent)
    (hready : w.graph.Several (d :: ds)) :
    ∃ w', Edit.deleteDeclaration d w = .ok () w' ∧ DeletesAll [d] [] w w' ∧
      w'.graph.Several ds := by
  obtain ⟨data, hdata⟩ := hasDeclaration_iff.mp (hready.live d List.mem_cons_self)
  refine ⟨w.discard d data, ?_, .of_discard hw hdata, hready.nodup.of_cons, fun d' hd' => ?_⟩
  · rw [Edit.deleteDeclaration_apply, hdata]
  · have hne : d' ≠ d := fun e => (List.nodup_cons.mp hready.nodup).1 (e ▸ hd')
    obtain ⟨data', hdata'⟩ := hasDeclaration_iff.mp (hready.of_cons.live d' hd')
    refine hasDeclaration_iff.mpr ⟨data', ?_⟩
    rw [declaration?_discard, if_neg hne, hdata']

theorem deletesAll_deleteContext {z : ContextId} {zs : List ContextId} (hw : w.graph.Consistent)
    (hready : w.graph.Apart (z :: zs)) :
    ∃ w', Edit.deleteContext z w = .ok () w' ∧ DeletesAll [] [z] w w' ∧ w'.graph.Apart zs := by
  obtain ⟨w', hok, hdeletes⟩ := deletesTree hw (hready.live z List.mem_cons_self)
  have hall := DeletesAll.of_deletesTree hdeletes
  obtain ⟨hnodup, hlive, hapart⟩ := hready.of_cons
  have hlive' : ∀ y ∈ zs, w'.graph.hasContext y = true := by
    refine fun y hy => (hdeletes.contexts y).mpr ⟨hlive y hy, ?_⟩
    refine hready.apart z List.mem_cons_self y (List.mem_cons_of_mem _ hy) fun e => ?_
    exact (List.nodup_cons.mp hready.nodup).1 (e ▸ hy)
  refine ⟨w', hok, hall, hnodup, hlive', fun y hy y' hy' hne htree => ?_⟩
  exact hapart y hy y' hy' hne ((hall.treeOf_iff (hlive' y' hy')).mp htree)

theorem deletesAll_declarations (keep : List Node) (ds : List DeclId) (hw : w.graph.Consistent)
    (hds : w.graph.Several ds) :
    ∃ w', Edit.forEach (fun d => do
        if .declaration d ∉ keep then
          Edit.deleteDeclaration d) ds w = .ok () w' ∧
      DeletesAll (ds.filter (.declaration · ∉ keep)) [] w w' := by
  obtain ⟨w', hok, hall⟩ := deletesAll_forEach (.declaration · ∉ keep) Several
    (fun _ _ _ => Several.of_cons) (fun _ _ _ => deletesAll_deleteDeclaration) ds hw hds
  rw [List.flatMap_singleton', List.flatMap_eq_nil_iff.mpr fun _ _ => rfl] at hall
  exact ⟨w', hok, hall⟩

theorem deletesAll_contexts (keep : List Node) (zs : List ContextId) (hw : w.graph.Consistent)
    (hzs : w.graph.Apart zs) :
    ∃ w', Edit.forEach (fun child => do
        if .context child ∉ keep then
          Edit.deleteContext child) zs w = .ok () w' ∧
      DeletesAll [] (zs.filter (.context · ∉ keep)) w w' := by
  obtain ⟨w', hok, hall⟩ := deletesAll_forEach (.context · ∉ keep) Apart
    (fun _ _ _ => Apart.of_cons) (fun _ _ _ => deletesAll_deleteContext) zs hw hzs
  rw [List.flatMap_singleton', List.flatMap_eq_nil_iff.mpr fun _ _ => rfl] at hall
  exact ⟨w', hok, hall⟩

/-- **Cleaning a context deletesAll what of it is not to be kept.** -/
theorem deletesAll_clean {c : ContextId} (hw : w.graph.Consistent) (hc : w.graph.hasContext c = true)
    (keep : List Node) : ∃ w', Edit.clean c keep w = .ok () w' ∧
      DeletesAll ((w.graph.localDeclarations c).filter (.declaration · ∉ keep))
        ((w.graph.children c).filter (.context · ∉ keep)) w w' := by
  obtain ⟨w₁, hok₁, hculls₁⟩ := deletesAll_declarations keep (w.graph.localDeclarations c) hw
    (hw.several_localDeclarations c)
  have hcontexts : ∀ x, w₁.graph.hasContext x = w.graph.hasContext x := by
    intro x
    rw [Bool.eq_iff_iff, hculls₁.contexts]
    simp
  have hchildren : w₁.graph.children c = w.graph.children c := by
    rw [hculls₁.children c ((hcontexts c).trans hc)]
    refine List.filter_eq_self.mpr fun y hy => ?_
    rw [hcontexts]
    exact hw.hasContext_child hy
  have hw₁ := hculls₁.consistent
  obtain ⟨data₁, hdata₁⟩ := hasContext_iff.mp ((hcontexts c).trans hc)
  have hdata : data₁.children = w₁.graph.children c := by
    unfold Graph.children
    rw [hdata₁]
    rfl
  obtain ⟨w₂, hok₂, hculls₂⟩ := deletesAll_contexts keep (w₁.graph.children c) hw₁
    (hw₁.apart_children c)
  refine ⟨w₂, ?_, ?_⟩
  · unfold Edit.clean
    rw [Edit.bind_of_ok (show Edit.graph w = .ok w.graph w from rfl), Edit.bind_of_ok hok₁,
      Edit.needContext_bind, hdata₁, ← hok₂, ← hdata]
  · have hall := hculls₁.trans hculls₂
    rw [List.append_nil, List.nil_append, hchildren] at hall
    exact hall

/-- **What cleaning comes to.** The lists of the context are what of them is to be kept.
    What goes are the other declarations on them, and the trees of the other children
    with what these declare. Nothing goes that is in the tree of a child that is kept. -/
structure Cleaning (w : Workspace) (c : ContextId) (keep : List Node) (w' : Workspace) : Prop where
  own : w'.graph.localDeclarations c =
    (w.graph.localDeclarations c).filter (.declaration · ∈ keep)
  children : w'.graph.children c = (w.graph.children c).filter (.context · ∈ keep)
  contexts : ∀ x, w'.graph.hasContext x = true ↔ w.graph.hasContext x = true ∧
    ∀ z ∈ w.graph.children c, .context z ∉ keep → ¬ w.graph.TreeOf z x
  declarations : ∀ d, w'.graph.hasDeclaration d = true ↔ ∃ data,
    w.graph.declaration? d = some data ∧
    (d ∈ w.graph.localDeclarations c → .declaration d ∈ keep) ∧
    ∀ x, data.context = some x → ∀ z ∈ w.graph.children c, .context z ∉ keep →
      ¬ w.graph.TreeOf z x
  spared : ∀ z ∈ w.graph.children c, .context z ∈ keep → ∀ x, w.graph.TreeOf z x →
    w'.graph.hasContext x = true ∧ w'.graph.TreeOf z x ∧
    ∀ d data, w.graph.declaration? d = some data → data.context = some x →
      w'.graph.hasDeclaration d = true

variable {w' : Workspace} {c : ContextId} {keep : List Node}

theorem DeletesAll.cleaning (hw : w.graph.Consistent) (hc : w.graph.hasContext c = true)
    (h : DeletesAll ((w.graph.localDeclarations c).filter (.declaration · ∉ keep))
      ((w.graph.children c).filter (.context · ∉ keep)) w w') : w.Cleaning c keep w' := by
  have hcontexts : ∀ x, w'.graph.hasContext x = true ↔ w.graph.hasContext x = true ∧
      ∀ z ∈ w.graph.children c, .context z ∉ keep → ¬ w.graph.TreeOf z x := by
    intro x
    simp only [h.contexts, List.mem_filter, decide_eq_true_eq, and_imp]
  have hdeclarations : ∀ d, w'.graph.hasDeclaration d = true ↔ ∃ data,
      w.graph.declaration? d = some data ∧
      (d ∈ w.graph.localDeclarations c → .declaration d ∈ keep) ∧
      ∀ x, data.context = some x → ∀ z ∈ w.graph.children c, .context z ∉ keep →
        ¬ w.graph.TreeOf z x := by
    intro d
    simp only [hasDeclaration_iff_outline, h.declarations, outline_declaration, List.mem_filter,
      decide_eq_true_eq, and_imp, not_and, not_not]
    constructor
    · rintro ⟨_, ⟨data, hdata, rfl⟩, hrest⟩
      exact ⟨data, hdata, hrest⟩
    · rintro ⟨data, hdata, hrest⟩
      exact ⟨_, ⟨data, hdata, rfl⟩, hrest⟩
  have hc' : w'.graph.hasContext c = true :=
    (hcontexts c).mpr ⟨hc, fun z hz _ => hw.not_treeOf_child hz⟩
  refine ⟨?_, ?_, hcontexts, hdeclarations, ?_⟩
  · rw [h.own c hc']
    refine List.filter_congr fun d hd => ?_
    rw [Bool.eq_iff_iff, hdeclarations, decide_eq_true_iff]
    obtain ⟨f, hf, hholder⟩ := hw.declared hd
    obtain ⟨data, hdata, rfl⟩ := outline_declaration.mp hf
    constructor
    · rintro ⟨_, _, hkeep, _⟩
      exact hkeep hd
    · refine fun hkeep => ⟨data, hdata, fun _ => hkeep, fun x hx z hz _ => ?_⟩
      cases hholder.symm.trans hx
      exact hw.not_treeOf_child hz
  · rw [h.children c hc']
    refine List.filter_congr fun z hz => ?_
    rw [Bool.eq_iff_iff, hcontexts, decide_eq_true_iff]
    constructor
    · exact fun hlive => Classical.byContradiction fun hkeep => hlive.2 z hz hkeep .refl
    · refine fun hkeep => ⟨hw.hasContext_child hz, fun z' hz' hkeep' => ?_⟩
      exact hw.apart hz' hz fun e => hkeep' (e ▸ hkeep)
  · intro z hz hkeep x hx
    have hout : ∀ z' ∈ w.graph.children c, .context z' ∉ keep → ¬ w.graph.TreeOf z' x :=
      fun z' hz' hkeep' => hw.disjoint hz hz' (fun e => hkeep' (e ▸ hkeep)) hx
    have hlive : w'.graph.hasContext x = true := (hcontexts x).mpr ⟨hw.hasContext_treeOf
      (hw.hasContext_child hz) hx, hout⟩
    refine ⟨hlive, (h.treeOf_iff hlive).mpr hx, fun d data hd hholder => ?_⟩
    refine (hdeclarations d).mpr ⟨data, hd, fun hown => ?_, fun y hy => ?_⟩
    · -- what is declared inside a child is not declared in the context
      obtain ⟨f, hf, hholder'⟩ := hw.declared hown
      rw [outline_declaration.mpr ⟨data, hd, rfl⟩] at hf
      cases hf
      cases hholder.symm.trans hholder'
      exact absurd hx (hw.not_treeOf_child hz)
    · cases hholder.symm.trans hy
      exact hout

/-- **Cleaning keeps exactly what is to be kept**, whatever calls came before. -/
theorem clean_keeps_listed (limits : Limits) (calls : List Call)
    (hfrees : (empty limits).FewFrees calls) (c : ContextId)
    (hc : ((empty limits).run calls).graph.hasContext c = true) (keep : List Node) :
    ∃ w', Edit.clean c keep ((empty limits).run calls) = .ok () w' ∧
      ((empty limits).run calls).Cleaning c keep w' := by
  obtain ⟨_, hkept, _⟩ := kept_run hfrees
  obtain ⟨w', hok, hall⟩ := deletesAll_clean hkept.kempt.consistent hc keep
  exact ⟨w', hok, hall.cleaning hkept.kempt.consistent hc⟩

/-- A file with two declarations and two contexts, each of which has a context inside
    it with a declaration. The first declaration opens the second context, which the
    innermost context of the first one imports, and whose innermost one propagates. -/
def halfRead : List Call :=
  [.change (.createTop ⟨0⟩ {}), .change (.createContext ⟨0, 0⟩ {}),
    .change (.createContext ⟨1, 0⟩ {}), .change (.createContext ⟨0, 0⟩ {}),
    .change (.createContext ⟨3, 0⟩ {}), .change (.setPropagates ⟨4, 0⟩ true),
    .change (.declare ⟨0, 0⟩ "x" {} .ordinary), .change (.declare ⟨0, 0⟩ "y" {} .ordinary),
    .change (.declare ⟨2, 0⟩ "z" {} .ordinary), .change (.declare ⟨4, 0⟩ "u" {} .ordinary),
    .change (.setInternal ⟨0, 0⟩ (some ⟨3, 0⟩)), .change (.addImport ⟨2, 0⟩ ⟨3, 0⟩ none)]

/-- What is inside the context that was met stays, though it was not met itself. -/
theorem clean_keeps_listed_half :
    let w := (empty {}).run halfRead
    ∃ w', Edit.clean ⟨0, 0⟩ [.declaration ⟨1, 0⟩, .context ⟨1, 0⟩] w = .ok () w' ∧
      w'.graph.localDeclarations ⟨0, 0⟩ = [⟨1, 0⟩] ∧ w'.graph.children ⟨0, 0⟩ = [⟨1, 0⟩] ∧
      w'.graph.hasContext ⟨2, 0⟩ = true ∧ w'.graph.hasDeclaration ⟨2, 0⟩ = true ∧
      w'.graph.hasContext ⟨4, 0⟩ = false ∧ w'.graph.hasDeclaration ⟨3, 0⟩ = false := by
  intro w
  obtain ⟨w', hok, h⟩ := clean_keeps_listed {} halfRead (fewFrees_of_length (by decide)) ⟨0, 0⟩
    (by decide +kernel) [.declaration ⟨1, 0⟩, .context ⟨1, 0⟩]
  have hdropped : (⟨3, 0⟩ : ContextId) ∈ w.graph.children ⟨0, 0⟩ := by decide +kernel
  have hinside : w.graph.TreeOf ⟨3, 0⟩ ⟨4, 0⟩ := .single (by decide +kernel)
  obtain ⟨hcontext, _, hdeclared⟩ := h.spared ⟨1, 0⟩ (by decide +kernel) (by decide) ⟨2, 0⟩
    (.single (by decide +kernel))
  have hz : (w.graph.declaration? ⟨2, 0⟩).map (·.context) = some (some ⟨2, 0⟩) := by decide +kernel
  obtain ⟨data, hdata, hholder⟩ := Option.map_eq_some_iff.mp hz
  refine ⟨w', hok, ?_, ?_, hcontext, hdeclared _ data hdata hholder, ?_, ?_⟩
  · rw [h.own]
    decide +kernel
  · rw [h.children]
    decide +kernel
  · refine Bool.eq_false_iff.mpr fun hlive => ?_
    exact ((h.contexts _).mp hlive).2 ⟨3, 0⟩ hdropped (by decide) hinside
  · refine Bool.eq_false_iff.mpr fun hlive => ?_
    have hu : (w.graph.declaration? ⟨3, 0⟩).map (·.context) = some (some ⟨4, 0⟩) := by decide +kernel
    obtain ⟨data, hdata, _, hout⟩ := (h.declarations _).mp hlive
    rw [hdata] at hu
    exact hout ⟨4, 0⟩ (Option.some.inj hu) ⟨3, 0⟩ hdropped (by decide) hinside

end Workspace

end ScopeGraph
