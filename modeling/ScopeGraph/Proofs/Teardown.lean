/-
  File:      ScopeGraph/Proofs/Teardown.lean
  Subject:   A context is torn down with all that is below it, and the symbol table
             is in order afterwards.

  While a teardown is under way, contexts that will go are out of step with their
  parents and with the table. What holds at every moment is less: the graph is
  `Consistent`, and what is not to go is as it was (`Prunes`).

  * `TeardownStep`: what can happen on the way of a teardown, step by step;
  * `TeardownSteps.prunes`, `TeardownSteps.keepsGuise`: what stays on the way is as it was;
  * `deleteContextWithin_ok`: a teardown does not fail, and the context is gone
    after it;
  * `Prunes.gone`: then all that was below it is gone;
  * `upholds_deleteContext`: then the graph is in order again.
-/
import ScopeGraph.Proofs.Declaring
import ScopeGraph.Proofs.Nesting

namespace ScopeGraph

/-! ## 1. What a teardown leaves alone -/

/-- The form without the children. -/
def Form.childless (f : Form) : Form := { f with children := 0 }

theorem Form.of_childless {f f' : Form} (h : f.childless = f'.childless) :
    f.parent = f'.parent ∧ f.anonymous = f'.anonymous ∧ f.registered = f'.registered ∧
      f.isTop = f'.isTop := by
  simp only [childless, mk.injEq] at h
  exact ⟨h.2.2.1, h.2.2.2.1, h.2.2.2.2.2.2⟩

theorem Outline.Regrafts.childless {o o' : Outline} {c x : ContextId} (h : Regrafts o o' c)
    (hx : x ≠ c) : (o'.context x).map Form.childless = (o.context x).map Form.childless := by
  have hnode := h.node x
  have hparent := h.parent x hx
  cases hf' : o'.context x with
  | none =>
    rw [hf'] at hnode
    rw [Option.map_eq_none_iff.mp hnode.symm]
  | some f' =>
    rw [hf'] at hnode
    obtain ⟨f, hf, he⟩ := Option.map_eq_some_iff.mp hnode.symm
    rw [parent?_of_context hf', parent?_of_context hf] at hparent
    have hback : ∀ f : Form, f.childless = { f.loose with parent := f.parent } := fun _ => rfl
    rw [hf, Option.map_some, Option.map_some, hback f, hback f', he, hparent]

namespace Graph

open Outline

/-- What is not in a set of contexts is as it was, but for children that go. What
    is left of the set has the parents it had. -/
structure Prunes (S : ContextId → Prop) (g g' : Graph) : Prop where
  context : ∀ {x f'}, g'.outline.context x = some f' → ∃ f, g.outline.context x = some f ∧
    f.parent = f'.parent ∧ f.anonymous = f'.anonymous ∧ f'.children ⊆ f.children
  outside : ∀ x, ¬ S x → (g'.outline.context x).map Form.childless =
    (g.outline.context x).map Form.childless
  held : ∀ x, ¬ S x → g'.heldContext x = g.heldContext x
  declaration : ∀ {d f}, g'.outline.declaration d = some f → g.outline.declaration d = some f ∧
    g'.heldDeclaration d = g.heldDeclaration d

namespace Prunes

variable {S S' : ContextId → Prop} {g g' g'' : Graph}

theorem refl (S : ContextId → Prop) (g : Graph) : Prunes S g g :=
  ⟨fun h => ⟨_, h, rfl, rfl, fun _ => id⟩, fun _ _ => rfl, fun _ _ => rfl, fun h => ⟨h, rfl⟩⟩

theorem trans (h : Prunes S g g') (h' : Prunes S g' g'') : Prunes S g g'' where
  context hx := by
    obtain ⟨f', hf', hparent', hanon', hchildren'⟩ := h'.context hx
    obtain ⟨f, hf, hparent, hanon, hchildren⟩ := h.context hf'
    exact ⟨f, hf, hparent.trans hparent', hanon.trans hanon', fun _ hz => hchildren (hchildren' hz)⟩
  outside x hx := (h'.outside x hx).trans (h.outside x hx)
  held x hx := (h'.held x hx).trans (h.held x hx)
  declaration hd := by
    obtain ⟨hd', hheld'⟩ := h'.declaration hd
    obtain ⟨hd, hheld⟩ := h.declaration hd'
    exact ⟨hd, hheld'.trans hheld⟩

theorem mono (h : Prunes S g g') (hS : ∀ x, S x → S' x) : Prunes S' g g' :=
  ⟨h.context, fun x hx => h.outside x fun hs => hx (hS x hs),
    fun x hx => h.held x fun hs => hx (hS x hs), h.declaration⟩

theorem of_sameRegistry (h : SameRegistry g g') (S : ContextId → Prop) : Prunes S g g' where
  context hx := ⟨_, h.shape.outline ▸ hx, rfl, rfl, fun _ => id⟩
  outside x _ := by rw [h.shape.outline]
  held x _ := by rw [h.entries.contexts]
  declaration hd := ⟨h.shape.outline ▸ hd, by rw [h.entries.declarations]⟩

theorem child (h : Prunes S g g') {p c : ContextId} (hc : g'.outline.Child p c) :
    g.outline.Child p c := by
  obtain ⟨f', hf', hmem⟩ := hc
  obtain ⟨f, hf, _, _, hchildren⟩ := h.context hf'
  exact ⟨f, hf, hchildren hmem⟩

theorem below (h : Prunes S g g') {c x : ContextId} (hx : g'.outline.Below c x) :
    g.outline.Below c x :=
  Relation.ReflTransGen.mono (fun _ _ => h.child) _ _ hx

theorem shallow (h : Prunes S g g') {n : Nat} {c : ContextId} (hc : g.outline.Shallow n c) :
    g'.outline.Shallow n c := by
  induction n generalizing c with
  | zero => exact hc
  | succ n ih => exact fun child hchild => ih (hc child (h.child hchild))

theorem dead (h : Prunes S g g') {x : ContextId} (hx : g.outline.context x = none) :
    g'.outline.context x = none := by
  cases hx' : g'.outline.context x with
  | none => rfl
  | some f' =>
    obtain ⟨f, hf, _⟩ := h.context hx'
    rw [hx] at hf
    cases hf

/-- What is not in the set stays. -/
theorem live (h : Prunes S g g') {x : ContextId} (hS : ¬ S x) {f : Form}
    (hx : g.outline.context x = some f) :
    ∃ f', g'.outline.context x = some f' ∧ f'.childless = f.childless := by
  have hout := h.outside x hS
  rw [hx] at hout
  exact Option.map_eq_some_iff.mp hout

/-- **Once a context is gone, all that was below it is**: what were left of it
    would have its parent. -/
theorem gone (h : Prunes S g g') (hg : g.outline.Tree) (hg' : g'.outline.Tree) {c x : ContextId}
    (hc : g'.outline.context c = none) (hx : g.outline.Below c x) :
    g'.outline.context x = none := by
  induction hx with
  | refl => exact hc
  | @tail y x _ hstep ih =>
    cases hx' : g'.outline.context x with
    | none => rfl
    | some f' =>
      obtain ⟨fy, hfy, hmem⟩ := hstep
      obtain ⟨f, hf, hanon, hparent⟩ := hg.child hfy hmem
      obtain ⟨f₀, hf₀, hparent', hanon', _⟩ := h.context hx'
      cases hf.symm.trans hf₀
      obtain ⟨fy', hfy', _⟩ := hg'.parent hx' (hanon'.symm.trans hanon) (hparent'.symm.trans hparent)
      rw [ih] at hfy'
      cases hfy'

/-- **After a teardown the graph is in order if it was.** What is left and is
    registered has no context above it that went, or it would have gone too. -/
theorem orderly {c : ContextId} (h : Prunes (g.outline.Below c) g g') (hg : g.Orderly)
    (hg' : g'.Consistent) (hc : g'.outline.context c = none) : g'.Orderly := by
  have hleft : ∀ {x f'}, g'.outline.context x = some f' → ¬ g.outline.Below c x := by
    intro x f' hx hbelow
    rw [h.gone hg.tree hg'.tree hc hbelow] at hx
    cases hx
  have hback : ∀ {x f'}, g'.outline.context x = some f' → ∃ f, g.outline.context x = some f ∧
      f.parent = f'.parent ∧ f.anonymous = f'.anonymous ∧ f.registered = f'.registered ∧
      f.isTop = f'.isTop := by
    intro x f' hx
    obtain ⟨f, hf, he⟩ := exists_of_map_eq (h.outside x (hleft hx)) hx
    exact ⟨f, hf, Form.of_childless he⟩
  have hframe : Workspace.CurrentOutside (g.outline.Below c) g' := by
    refine Workspace.currentOutside_of_frame hg.current h.held h.declaration (fun x hx => ?_)
      fun x f hx hf hreg => ?_
    · have hout := congrArg (Option.map Form.standing) (h.outside x hx)
      rw [Option.map_map, Option.map_map] at hout
      exact hout
    · obtain ⟨l, hl⟩ := hg.tree.line x
      refine scopePath_of_agree hl fun y hy => ?_
      have hy' : ¬ g.outline.Below c y := by
        intro hbelow
        obtain ⟨ly, hly, hsuffix⟩ := hl.suffix hy
        have hcl := hsuffix.subset (hg.tree.mem_line_of_below hbelow hly)
        exact hx (hg.flagged.below hg.tree hl hf hreg hcl)
      have hout := congrArg (Option.map fun f : Form => (f.parent, f.scope)) (h.outside y hy')
      rw [Option.map_map, Option.map_map] at hout
      exact hout
  refine ⟨hg', fun x f' hx htop => ?_, ⟨fun hx hanon hparent hp => ?_, fun hx hanon => ?_⟩,
    fun x => ?_, fun d => ?_⟩
  · obtain ⟨f, hf, hparent, hanon, _, htop'⟩ := hback hx
    have hroot := hg.rooted x f hf (htop'.trans htop)
    exact ⟨hparent.symm.trans hroot.1, hanon.symm.trans hroot.2⟩
  · obtain ⟨f, hf, hparent', hanon', hreg, _⟩ := hback hx
    obtain ⟨fp, hfp, _, _, hregp, _⟩ := hback hp
    rw [← hreg, ← hregp]
    exact hg.flagged.inherit hf (hanon'.trans hanon) (hparent'.trans hparent) hfp
  · obtain ⟨f, hf, _, hanon', hreg, _⟩ := hback hx
    rw [← hreg]
    exact hg.flagged.anonymous hf (hanon'.trans hanon)
  · cases hx : g'.outline.context x with
    | none => exact currentContext_of_gone (Option.map_eq_none_iff.mp hx)
    | some f' => exact hframe.contexts x (hleft hx)
  · cases hd : g'.outline.declaration d with
    | none => exact currentDeclaration_of_gone (Option.map_eq_none_iff.mp hd)
    | some f =>
      refine hframe.declarations d f hd fun x hx => ?_
      obtain ⟨fx, hfx, _⟩ := hg'.holds.holder hd hx
      exact hleft hfx

theorem descends (h : Prunes S g g') : Descends g.outline g'.outline := by
  refine ⟨fun x hx => ?_, fun x p hp => .inl ?_⟩
  · obtain ⟨f', hf'⟩ := Option.isSome_iff_exists.mp hx
    obtain ⟨f, hf, _⟩ := h.context hf'
    rw [hf]
    rfl
  · obtain ⟨f', hf', hparent⟩ := Option.bind_eq_some_iff.mp hp
    obtain ⟨f, hf, hparent', _⟩ := h.context hf'
    rw [parent?_of_context hf, hparent', hparent]

end Prunes

end Graph

/-! ## 2. One context less -/

namespace Outline

variable {o : Outline} {c : ContextId}

theorem of_erase {x : ContextId} {f : Form} (h : (o.erase c).context x = some f) :
    x ≠ c ∧ o.context x = some f := by
  have hx : x ≠ c := by
    intro e
    have hnone : (o.erase c).context x = none := if_pos e
    rw [hnone] at h
    cases h
  exact ⟨hx, (if_neg hx).symm.trans h⟩

theorem erase_of_ne {x : ContextId} (hx : x ≠ c) : (o.erase c).context x = o.context x := if_neg hx

theorem child_of_erase {y z : ContextId} (h : (o.erase c).Child y z) : o.Child y z := by
  obtain ⟨f, hf, hmem⟩ := h
  exact ⟨f, (of_erase hf).2, hmem⟩

theorem Listed.erase (hl : o.Listed) (hfree : ∀ y, ¬ o.Child y c) : (o.erase c).Listed := by
  intro y z f hy hz
  obtain ⟨_, hf⟩ := of_erase hy
  obtain ⟨fz, hfz, hchild⟩ := hl y z f hf hz
  have hne : z ≠ c := fun e => hfree y ⟨f, hf, e ▸ hz⟩
  exact ⟨fz, (erase_of_ne hne).trans hfz, hchild⟩

/-- A context without children that is nobody's child may go. -/
theorem Matched.erase (hm : o.Matched) (hleaf : ∀ y, ¬ o.Child c y) (hfree : ∀ y, ¬ o.Child y c) :
    (o.erase c).Matched where
  listed := hm.listed.erase hfree
  parent := by
    intro z q f hz hanon hparent
    obtain ⟨_, hf⟩ := of_erase hz
    obtain ⟨fq, hfq, hmem⟩ := hm.parent hf hanon hparent
    have hne : q ≠ c := fun e => hleaf z ⟨fq, e ▸ hfq, hmem⟩
    exact ⟨fq, (erase_of_ne hne).trans hfq, hmem⟩
  nodup hy := hm.nodup (of_erase hy).2

theorem Tree.erase (ht : o.Tree) (hleaf : ∀ y, ¬ o.Child c y) (hfree : ∀ y, ¬ o.Child y c) :
    (o.erase c).Tree := by
  refine (ht.matched.erase hleaf hfree).tree fun x => ?_
  have hparent : ∀ y, y ≠ c → (o.erase c).parent? y = o.parent? y := by
    intro y hy
    unfold parent?
    rw [erase_of_ne hy]
  have hend : (o.erase c).parent? c = none := by
    unfold parent?
    have hnone : (o.erase c).context c = none := if_pos rfl
    rw [hnone]
    rfl
  obtain ⟨l, hl⟩ := ht.line x
  exact hl.reroute hparent ⟨[c], .root hend⟩

/-- A context that holds nothing may go. -/
theorem Holds.erase (hh : o.Holds) (hempty : ∀ f, o.context c = some f → f.own = 0) :
    (o.erase c).Holds where
  own := fun hx hmem => hh.own (of_erase hx).2 hmem
  holder := by
    intro d fd x hd hx
    obtain ⟨f, hf, hmem⟩ := hh.holder hd hx
    have hne : x ≠ c := by
      rintro rfl
      rw [hempty f hf] at hmem
      exact Multiset.notMem_zero _ hmem
    exact ⟨f, (erase_of_ne hne).trans hf, hmem⟩
  nodup := fun hx => hh.nodup (of_erase hx).2

end Outline

namespace Graph

theorem context?_eraseContext (g : Graph) (c x : ContextId) :
    ({ g with contexts := g.contexts.erase c } : Graph).context? x =
      if x = c then none else g.context? x := Store.get?_erase g.contexts c x

theorem outline_eraseContext (g : Graph) (c : ContextId) :
    ({ g with contexts := g.contexts.erase c } : Graph).outline = g.outline.erase c := by
  unfold outline Outline.erase
  congr 1
  funext x
  show (Store.get? _ x).map Context.form = _
  rw [Store.get?_erase]
  split <;> rfl

/-- A context that is held nowhere may go. -/
theorem SameEntries.eraseContext {g : Graph} {c : ContextId} (h : g.heldContext c = none) :
    SameEntries g { g with contexts := g.contexts.erase c } := by
  refine .of_held (funext fun x => ?_) rfl rfl .rfl
  show ((g.contexts.erase c).get? x).bind (·.key) = _
  rw [Store.get?_erase]
  split
  · next hx => rw [hx, h]; rfl
  · rfl

end Graph

/-! ## 3. Severing and releasing -/

namespace Workspace

open ScopeGraph.Graph Outline

variable {w : Workspace} {c : ContextId}

/-- A context that is cut off from the table is in it nowhere, and nothing else
    changes. -/
theorem severs {data : Context} (hw : w.graph.Consistent) (hc : w.graph.context? c = some data) :
    let g := (w.sever c data).graph
    g.Consistent ∧ Prunes (· = c) w.graph g ∧ g.heldContext c = none ∧
      SameBranches w.graph.outline g.outline ∧ SameStock w.graph g := by
  let f : Context → Context := fun data => { data with
    file := data.file.map ({ · with deleting := true })
    owner := none
    key := none
    registered := false }
  let w₁ := w.onGraph (·.modifyContext c f)
  let w₂ := whenSome data.owner (fun d w => w.onGraph (·.clearInternal d c)) w₁
  have hbeside : Graph.Beside w₁.graph w₂.graph := by
    show Graph.Beside w₁.graph (whenSome data.owner _ w₁).graph
    cases data.owner with
    | none => exact .refl _
    | some d =>
      refine Graph.View.Same.modifyDeclaration _ d fun data => ?_
      split <;> rfl
  have h₂ := hbeside.sameRegistry
  have hstock₁ : SameStock w.graph w₁.graph := Graph.View.Same.modifyContext _ c fun _ => rfl
  have hstock : SameStock w.graph w₂.graph := hstock₁.trans hbeside.sameStock
  have hgraph : (w.sever c data).graph = { w₂.graph with table :=
      { w₂.graph.table with contexts := w₂.graph.table.contexts.rekey c data.key none } } := by
    show (whenSome data.key _ w₂).graph = _
    cases data.key <;> rfl
  have houtline : w₂.graph.outline = w.graph.outline.modify c ({ · with registered := false }) := by
    rw [h₂.shape.outline]
    refine outline_modifyContext fun data => ?_
    unfold Context.form Context.isTop
    simp [f]
  have hold : w.graph.heldContext c = data.key := by
    unfold heldContext
    rw [hc]
    rfl
  have hheld : ∀ x, w₂.graph.heldContext x = if x = c then none else w.graph.heldContext x := by
    intro x
    rw [h₂.entries.contexts]
    unfold heldContext
    show ((w.graph.modifyContext c f).context? x).bind (·.key) = _
    rw [context?_modifyContext]
    split
    · cases w.graph.context? x <;> rfl
    · rfl
  have hdecl : w₂.graph.heldDeclaration = w.graph.heldDeclaration := h₂.entries.declarations
  have hbranches : SameBranches w.graph.outline w₂.graph.outline :=
    houtline ▸ sameBranches_modify _ c fun _ => rfl
  have htable : w₂.graph.table = w.graph.table := h₂.entries.table
  dsimp only
  rw [hgraph]
  refine ⟨⟨hbranches.tree hw.tree, ?_, ?_, ?_, ?_⟩, ⟨fun hx => ?_, fun x hx => ?_, fun x hx => ?_,
    fun hd => ?_⟩, ?_, hbranches, hstock⟩
  · show w₂.graph.outline.Holds
    exact houtline ▸ hw.holds.modify c fun _ => rfl
  · show (w₂.graph.table.contexts.rekey c data.key none).Indexes w₂.graph.heldContext
    rw [htable]
    exact hw.entered.contexts.rekey hold hheld
  · show w₂.graph.table.declarations.Indexes w₂.graph.heldDeclaration
    rw [htable, hdecl]
    exact hw.entered.declarations
  · exact h₂.nodes.declarations.tidy hw.entered.tidy
  · obtain ⟨f₀, hf₀, hparent, hanon, hchildren, _⟩ := hbranches.context hx
    exact ⟨f₀, hf₀, hparent, hanon, hchildren ▸ fun _ => id⟩
  · show (w₂.graph.outline.context x).map _ = _
    rw [houtline, modify_of_ne _ _ hx]
  · exact (hheld x).trans (if_neg hx)
  · have hd' : w₂.graph.outline.declaration _ = some _ := hd
    rw [houtline] at hd'
    exact ⟨hd', congrFun hdecl _⟩
  · exact (hheld c).trans (if_pos rfl)

end Workspace

theorem Graph.Discards.prunes {g g' : Graph} {d : DeclId} {c : ContextId}
    (h : g.Discards g' d (some c)) : Prunes (· = c) g g' where
  context hx := by
    obtain ⟨f, hf, hparent, hanon, hchildren, _⟩ := h.sameTree.sameBranches.context hx
    exact ⟨f, hf, hparent, hanon, hchildren ▸ fun _ => id⟩
  outside x hx := by
    rw [h.outline]
    exact congrArg _ (Outline.modify_of_ne _ _ hx)
  held x _ := by rw [h.contexts]
  declaration := by
    intro d' f hd'
    have hne : d' ≠ d := by
      rintro rfl
      rw [outline_declaration_eq, h.gone] at hd'
      cases hd'
    exact ⟨(h.declaration_of_ne hne).symm.trans hd', (h.declarations d').trans (if_neg hne)⟩

namespace Graph

open Outline

variable {g : Graph} {c : ContextId} {data : Context}

/-- The graph with a context taken from below its parent. An anonymous context is
    no child and stays where it is. -/
def loosen (g : Graph) (c : ContextId) (data : Context) : Graph :=
  data.parent.elim g fun p => if data.anonymous then g else g.unlinkChild p c

/-- A context that was loosened is nobody's child. -/
theorem not_child_loosen (hl : g.outline.Listed) (hc : g.context? c = some data)
    (y : ContextId) : ¬ (g.loosen c data).outline.Child y c := by
  have hform : g.outline.context c = some data.form := outline_context.mpr ⟨data, hc, rfl⟩
  have hparent : g.outline.parent? c = data.parent := parent?_of_context hform
  unfold loosen
  cases hp : data.parent with
  | none => exact hl.not_child_of_root (hparent.trans hp)
  | some p =>
    cases hanon : data.anonymous with
    | true => exact hl.not_child_of_anonymous hform hanon
    | false =>
      show ¬ (g.unlinkChild p c).outline.Child y c
      rw [outline_unlink]
      refine (hl.unlink p c).not_child_of_root ?_
      rw [parent?_unlink (hparent.trans hp), if_pos rfl]

/-- A context that is below nothing any more, while nothing else moved. -/
theorem loosened (hg : g.Consistent) (hc : g.context? c = some data) :
    (g.loosen c data).outline.Tree ∧ SameEntries g (g.loosen c data) ∧
      Regrafts g.outline (g.loosen c data).outline c ∧
      (∀ y z, (g.loosen c data).outline.Child y z → g.outline.Child y z) ∧
      ∀ y, ¬ (g.loosen c data).outline.Child y c := by
  have hform : g.outline.context c = some data.form := outline_context.mpr ⟨data, hc, rfl⟩
  have hparent : g.outline.parent? c = data.parent := parent?_of_context hform
  have hfree := not_child_loosen hg.tree.listed hc
  unfold loosen at hfree ⊢
  cases hp : data.parent with
  | none =>
    rw [hp] at hfree
    exact ⟨hg.tree, .refl _, .refl _ c, fun _ _ => id, hfree⟩
  | some p =>
    rw [hp] at hparent hfree
    cases hanon : data.anonymous with
    | true =>
      rw [hanon] at hfree
      exact ⟨hg.tree, .refl _, .refl _ c, fun _ _ => id, hfree⟩
    | false =>
      rw [hanon] at hfree
      have houtline := outline_unlink g p c
      have ht : (g.unlinkChild p c).outline.Tree := houtline ▸ hg.tree.unlink hparent
      refine ⟨ht, .unlinkChild _ p c, houtline ▸ regrafts_unlink hparent, ?_, hfree⟩
      show ∀ y z, (g.unlinkChild p c).outline.Child y z → _
      rw [houtline]
      exact fun _ _ => child_of_unlink

end Graph

namespace Workspace

open ScopeGraph.Graph Outline

variable {w w' : Workspace} {c : ContextId} {data : Context}

theorem graph_release (w : Workspace) (c : ContextId) (data : Context) :
    (w.release c data).graph = { w.graph.loosen c data with
      contexts := (w.graph.loosen c data).contexts.erase c } := by
  unfold release loosen onGraph
  cases data.parent <;> cases data.anonymous <;> cases data.isTop <;> rfl

/-- A context that has no children, holds nothing, has no owner and is in the table
    nowhere. -/
structure Bare (w : Workspace) (c : ContextId) (data : Context) : Prop where
  context : w.graph.context? c = some data
  children : data.children = []
  own : data.locals.ordered = []
  unowned : data.owner = none
  unheld : w.graph.heldContext c = none

/-- Such a context goes unnoticed by the table. -/
theorem sameEntries_release (hw : w.graph.Consistent) (h : w.Bare c data) :
    SameEntries w.graph (w.release c data).graph := by
  have hentries := (loosened hw h.context).2.1
  rw [graph_release]
  refine hentries.trans (SameEntries.eraseContext ?_)
  rw [hentries.contexts]
  exact h.unheld

/-- **The last step of a teardown**: such a context goes. -/
theorem released (hw : w.graph.Consistent) (h : w.Bare c data) :
    (w.release c data).graph.Consistent ∧ Prunes (· = c) w.graph (w.release c data).graph ∧
      (w.release c data).graph.outline.context c = none := by
  obtain ⟨ht, _, hgraft, hshrink, hfree⟩ := loosened hw h.context
  have hc : w.graph.outline.context c = some data.form := outline_context.mpr ⟨data, h.context, rfl⟩
  have houtline : (w.release c data).graph.outline = (w.graph.loosen c data).outline.erase c :=
    graph_release w c data ▸ outline_eraseContext _ c
  have hentries := sameEntries_release hw h
  refine ⟨⟨?_, ?_, hentries.entered hw.entered⟩, ⟨fun hx => ?_, fun x hx => ?_,
    fun x _ => congrFun hentries.contexts x, fun hd => ?_⟩, ?_⟩
  · rw [houtline]
    refine ht.erase (fun y hy => ?_) hfree
    obtain ⟨f', hf', hmem⟩ := hshrink c y hy
    cases hc.symm.trans hf'
    have hmem : y ∈ data.children := hmem
    rw [h.children] at hmem
    exact List.not_mem_nil hmem
  · rw [houtline]
    refine (hgraft.holds hw.holds).erase fun f' hf' => ?_
    have hsame := hgraft.map Form.own (fun _ => rfl) c
    rw [hf', hc] at hsame
    exact (Option.some.inj hsame).trans (congrArg _ h.own)
  · rw [houtline] at hx
    obtain ⟨hne, hf'⟩ := of_erase hx
    obtain ⟨f₀, hf₀, _, hanon, _⟩ := hgraft.context hf'
    have hparent := hgraft.parent _ hne
    rw [parent?_of_context hf', parent?_of_context hf₀] at hparent
    refine ⟨f₀, hf₀, hparent.symm, hanon, fun z hz => ?_⟩
    obtain ⟨f₁, hf₁, hmem⟩ := hshrink _ z ⟨_, hf', hz⟩
    cases hf₀.symm.trans hf₁
    exact hmem
  · rw [houtline, erase_of_ne hx]
    exact hgraft.childless hx
  · rw [houtline] at hd
    refine ⟨?_, congrFun hentries.declarations _⟩
    rw [← hgraft.declaration]
    exact hd
  · rw [houtline]
    exact if_pos rfl

end Workspace

/-! ## 4. Steps of a teardown -/

/-- What a teardown never changes of a context. -/
def Context.guise (data : Context) : Span × ContextKind × QualName × Bool × Bool × Bool :=
  (data.range, data.kind, data.scopeName, data.anonymous, data.propagates, data.isTop)

namespace Graph

/-- What stays of the contexts looks as it did, and gets no owner. -/
def KeepsGuise (g g' : Graph) : Prop :=
  ∀ x data', g'.context? x = some data' → ∃ data, g.context? x = some data ∧
    data.guise = data'.guise ∧ (data.owner = none → data'.owner = none)

namespace KeepsGuise

variable {g g' g'' : Graph}

theorem refl (g : Graph) : KeepsGuise g g := fun _ _ hx => ⟨_, hx, rfl, id⟩

theorem trans (h : KeepsGuise g g') (h' : KeepsGuise g' g'') : KeepsGuise g g'' := by
  intro x data'' hx
  obtain ⟨data', hdata', hguise', howner'⟩ := h' x data'' hx
  obtain ⟨data, hdata, hguise, howner⟩ := h x data' hdata'
  exact ⟨data, hdata, hguise.trans hguise', howner' ∘ howner⟩

theorem of_map_eq (h : ∀ x, (g'.context? x).map (fun data => (data.guise, data.owner)) =
    (g.context? x).map fun data => (data.guise, data.owner)) : KeepsGuise g g' := by
  intro x data' hx
  obtain ⟨data, hdata, he⟩ := exists_of_map_eq (h x) hx
  obtain ⟨hguise, howner⟩ := Prod.mk.inj he
  exact ⟨data, hdata, hguise, fun hnone => howner.symm.trans hnone⟩

theorem eraseContext (g : Graph) (c : ContextId) :
    KeepsGuise g { g with contexts := g.contexts.erase c } := by
  intro x data' hx
  rw [context?_eraseContext] at hx
  split at hx
  · cases hx
  · exact ⟨data', hx, rfl, id⟩

theorem ownerOf? (h : KeepsGuise g g') {x : ContextId} (hx : g.ownerOf? x = none) :
    g'.ownerOf? x = none := by
  unfold Graph.ownerOf? at hx ⊢
  cases hx' : g'.context? x with
  | none => rfl
  | some data' =>
    obtain ⟨data, hdata, _, howner⟩ := h x data' hx'
    rw [hdata] at hx
    exact howner hx

end KeepsGuise

end Graph

namespace Workspace

open ScopeGraph.Graph Outline

variable {w w' : Workspace} {c : ContextId} {data : Context}

theorem keepsGuise_unlinkImport (w : Workspace) (a b : ContextId) :
    KeepsGuise w.graph (w.unlinkImport a b).graph := by
  refine .of_map_eq fun x => ?_
  simp only [unlinkImport, onGraph]
  rw [map_context?_modifyContext, map_context?_modifyContext] <;> exact fun _ => rfl

/-- Only the context itself is another one. -/
theorem context?_sever (w : Workspace) (c : ContextId) (data : Context) (x : ContextId) :
    (w.sever c data).graph.context? x = if x = c then (w.graph.context? x).map fun data =>
      { data with
        file := data.file.map ({ · with deleting := true })
        owner := none
        key := none
        registered := false } else w.graph.context? x := by
  unfold sever
  cases data.owner <;> cases data.key <;> exact context?_modifyContext w.graph c x _

theorem ownerOf?_sever (w : Workspace) (c : ContextId) (data : Context) :
    (w.sever c data).graph.ownerOf? c = none := by
  unfold ownerOf?
  rw [context?_sever, if_pos rfl]
  cases w.graph.context? c <;> rfl

theorem keepsGuise_sever (w : Workspace) (c : ContextId) (data : Context) :
    KeepsGuise w.graph (w.sever c data).graph := by
  intro x data' hx
  rw [context?_sever] at hx
  split at hx
  · obtain ⟨data₀, hdata₀, rfl⟩ := Option.map_eq_some_iff.mp hx
    refine ⟨data₀, hdata₀, ?_, fun _ => rfl⟩
    simp only [Context.guise, Context.isTop, Option.isSome_map]
  · exact ⟨data', hx, rfl, id⟩

theorem keepsGuise_discard (w : Workspace) (d : DeclId) (data : Declaration) :
    KeepsGuise w.graph (w.discard d data).graph := by
  refine .trans (.of_map_eq (map_context?_withdraw (fun _ _ _ _ => rfl) d data.context)) ?_
  intro x data' hx
  rw [context?_discard] at hx
  obtain ⟨data₀, hdata₀, rfl⟩ := Option.map_eq_some_iff.mp hx
  refine ⟨data₀, hdata₀, ?_, fun hnone => ?_⟩
  · simp only [Context.guise, Context.isTop, Context.bereft, apply_ite Option.isSome,
      Option.isSome_map, ite_self]
  · simp [Context.bereft, hnone]

theorem keepsGuise_release (w : Workspace) (c : ContextId) (data : Context) :
    KeepsGuise w.graph (w.release c data).graph := by
  rw [graph_release]
  refine .trans (.of_map_eq fun x => ?_) (.eraseContext _ c)
  unfold loosen
  cases data.parent with
  | none => rfl
  | some p =>
    dsimp only [Option.elim]
    split
    · rfl
    · exact map_context?_unlinkChild (fun _ _ _ _ => rfl) p c x

/-- **One step on the way of a teardown** of the contexts in `S`. Of contexts, only
    such that are not anonymous go on the way. -/
inductive TeardownStep (S : ContextId → Prop) : Workspace → Workspace → Prop where
  | unimport {w : Workspace} {a b : ContextId} {data : Context} :
      S a ∨ S b → w.graph.context? a = some data →
      TeardownStep S w ((w.unlinkImport a b).forgetIf data.isTop a)
  | clearUses {w : Workspace} {c : ContextId} :
      S c → TeardownStep S w (w.onGraph (·.modifyContext c ({ · with uses := [] })))
  | sever {w : Workspace} {c : ContextId} {data : Context} :
      S c → w.graph.context? c = some data → TeardownStep S w (w.sever c data)
  | discard {w : Workspace} {c : ContextId} {d : DeclId} {data : Declaration} :
      S c → w.graph.declaration? d = some data → data.context = some c →
      TeardownStep S w (w.discard d data)
  | release {w : Workspace} {c : ContextId} {data : Context} :
      S c → w.Bare c data → data.anonymous = false → TeardownStep S w (w.release c data)

/-- A teardown on its way. -/
def TeardownSteps (S : ContextId → Prop) : Workspace → Workspace → Prop :=
  Relation.ReflTransGen (TeardownStep S)

variable {S S' : ContextId → Prop}

theorem TeardownStep.mono (h : TeardownStep S w w') (hS : ∀ x, S x → S' x) :
    TeardownStep S' w w' := by
  cases h with
  | unimport hab ha => exact .unimport (hab.imp (hS _) (hS _)) ha
  | clearUses hc => exact .clearUses (hS _ hc)
  | sever hc hdata => exact .sever (hS _ hc) hdata
  | discard hc hd hholder => exact .discard (hS _ hc) hd hholder
  | release hc hbare hnamed => exact .release (hS _ hc) hbare hnamed

theorem TeardownSteps.mono (h : TeardownSteps S w w') (hS : ∀ x, S x → S' x) :
    TeardownSteps S' w w' :=
  Relation.ReflTransGen.mono (fun _ _ hstep => TeardownStep.mono hstep hS) _ _ h

theorem Beside.unimport (w : Workspace) (a b : ContextId) (isTop : Bool) :
    Beside w ((w.unlinkImport a b).forgetIf isTop a) :=
  (View.Same.unlinkImport View.overlooksImports_core w a b).trans
    (View.Same.forgetIf View.overlooksImports_core _ isTop a)

theorem Beside.clearUses (w : Workspace) (c : ContextId) :
    Beside w (w.onGraph (·.modifyContext c ({ · with uses := [] }))) :=
  View.Same.onGraph (.modifyContext _ c fun _ => rfl)

theorem TeardownStep.consistent (h : TeardownStep S w w') (hw : w.graph.Consistent) :
    w'.graph.Consistent := by
  cases h with
  | unimport => exact (Beside.unimport w _ _ _).graph.sameRegistry.consistent hw
  | clearUses => exact (Beside.clearUses w _).graph.sameRegistry.consistent hw
  | sever _ hc => exact (severs hw hc).1
  | discard _ hd _ => exact (discards hd).consistent hw (outline_declaration.mpr ⟨_, hd, rfl⟩) rfl
  | release _ hbare _ => exact (released hw hbare).1

theorem TeardownSteps.consistent (h : TeardownSteps S w w') (hw : w.graph.Consistent) :
    w'.graph.Consistent := by
  induction h with
  | refl => exact hw
  | tail _ hstep ih => exact hstep.consistent ih

theorem TeardownStep.prunes (h : TeardownStep S w w') (hw : w.graph.Consistent) :
    Prunes S w.graph w'.graph := by
  cases h with
  | unimport => exact .of_sameRegistry (Beside.unimport w _ _ _).graph.sameRegistry S
  | clearUses => exact .of_sameRegistry (Beside.clearUses w _).graph.sameRegistry S
  | sever hc hdata => exact (severs hw hdata).2.1.mono fun _ e => e ▸ hc
  | discard hc hd hholder =>
    have hdiscards := discards hd
    rw [hholder] at hdiscards
    exact hdiscards.prunes.mono fun _ e => e ▸ hc
  | release hc hbare _ => exact (released hw hbare).2.1.mono fun _ e => e ▸ hc

/-- **A teardown on its way leaves alone what is not to go.** -/
theorem TeardownSteps.prunes (h : TeardownSteps S w w') (hw : w.graph.Consistent) :
    Prunes S w.graph w'.graph := by
  induction h with
  | refl => exact .refl S _
  | tail hteardown hstep ih => exact ih.trans (hstep.prunes (TeardownSteps.consistent hteardown hw))

theorem TeardownStep.keepsGuise (h : TeardownStep S w w') : KeepsGuise w.graph w'.graph := by
  cases h with
  | @unimport a b data =>
    rw [graph_forgetIf]
    exact keepsGuise_unlinkImport w a b
  | clearUses => exact .of_map_eq (map_context?_modifyContext _ _ fun _ => rfl)
  | @sever c data => exact keepsGuise_sever w c data
  | @discard c d data => exact keepsGuise_discard w d data
  | @release c data => exact keepsGuise_release w c data

theorem TeardownSteps.keepsGuise (h : TeardownSteps S w w') : KeepsGuise w.graph w'.graph := by
  induction h with
  | refl => exact .refl _
  | tail _ hstep ih => exact ih.trans hstep.keepsGuise

theorem SameRegistry.isSome_context? {w' : Workspace} (h : SameRegistry w w') (x : ContextId) :
    (w'.graph.context? x).isSome = (w.graph.context? x).isSome :=
  h.graph.nodes.contexts.isSome_get? x

end Workspace

/-! ## 5. Closing and freeing a context -/

namespace Edit

open Workspace ScopeGraph.Graph Outline

variable {w : Workspace} {c : ContextId} {S : ContextId → Prop}

theorem removeImport_ok (hc : (w.graph.context? c).isSome) {target : ContextId}
    (hS : S c ∨ S target) :
    ∃ removed w', removeImport c target w = .ok removed w' ∧ w.TeardownSteps S w' := by
  obtain ⟨data, hdata⟩ := Option.isSome_iff_exists.mp hc
  rw [removeImport_apply, hdata]
  dsimp only
  split
  · exact ⟨_, _, rfl, .single (.unimport hS hdata)⟩
  · exact ⟨_, _, rfl, .refl⟩

theorem removeImports_ok (targets : List ContextId) (hc : (w.graph.context? c).isSome) (hS : S c) :
    ∃ n w', removeImports c targets w = .ok n w' ∧ w.TeardownSteps S w' := by
  induction targets generalizing w with
  | nil => exact ⟨0, w, rfl, .refl⟩
  | cons target rest ih =>
    obtain ⟨removed, w₁, h₁, hteardown₁⟩ := removeImport_ok hc (.inl hS)
    have hsame := (beside_removeImport c target).of_ok h₁
    obtain ⟨n, w₂, h₂, hteardown₂⟩ := ih (hsame.sameRegistry.isSome_context? c ▸ hc)
    refine ⟨removed.toNat + n, w₂, ?_, hteardown₁.trans hteardown₂⟩
    unfold removeImports
    rw [bind_of_ok h₁, bind_of_ok h₂]
    rfl

theorem clearImports_ok (hc : (w.graph.context? c).isSome) (hS : S c) :
    ∃ n w', clearImports c w = .ok n w' ∧ w.TeardownSteps S w' := by
  obtain ⟨data, hdata⟩ := Option.isSome_iff_exists.mp hc
  unfold clearImports
  rw [needContext_bind, hdata]
  exact removeImports_ok _ hc hS

theorem beside_dropImporters (c : ContextId) (importers : List ContextId) :
    Follows Beside (dropImporters c importers) :=
  follows_dropImporters (fun i => beside_removeImport i c) importers

theorem dropImporters_ok (importers : List ContextId) (w : Workspace) (hS : S c) :
    ∃ w', dropImporters c importers w = .ok () w' ∧ w.TeardownSteps S w' := by
  unfold dropImporters
  induction importers generalizing w with
  | nil => exact ⟨w, rfl, .refl⟩
  | cons i rest ih =>
    have hone : ∃ w₁, (do
        if (← graph).hasContext i then
          let _ ← removeImport i c : Edit Unit) w = .ok () w₁ ∧ w.TeardownSteps S w₁ := by
      rw [bind_of_ok (show graph w = .ok w.graph w from rfl)]
      by_cases hi : w.graph.hasContext i = true
      · obtain ⟨removed, w₁, h₁, hteardown⟩ := removeImport_ok (c := i) hi (.inr hS)
        rw [if_pos hi, bind_of_ok h₁]
        exact ⟨w₁, rfl, hteardown⟩
      · rw [if_neg hi]
        exact ⟨w, rfl, .refl⟩
    obtain ⟨w₁, h₁, hteardown₁⟩ := hone
    obtain ⟨w₂, h₂, hteardown₂⟩ := ih w₁
    exact ⟨w₂, (bind_of_ok h₁).trans h₂, hteardown₁.trans hteardown₂⟩

/-- **The first part of a teardown** takes the context out of the table and leaves
    its place in the tree. -/
theorem closeContext_ok {data : Context} (hw : w.graph.Consistent)
    (hc : w.graph.context? c = some data) :
    ∃ w', closeContext c w = .ok () w' ∧ w.TeardownSteps (· = c) w' ∧ w'.graph.heldContext c = none ∧
      w'.graph.ownerOf? c = none ∧ SameBranches w.graph.outline w'.graph.outline := by
  obtain ⟨_, _, hheld, hbranches, _⟩ := severs hw hc
  obtain ⟨w₂, h₂, hteardown₂⟩ :=
    dropImporters_ok (S := (· = c)) data.importers (w.sever c data) rfl
  have hbeside₂ := (beside_dropImporters c data.importers).of_ok h₂
  have hlive : (w₂.graph.context? c).isSome := by
    rw [hbeside₂.sameRegistry.isSome_context?]
    obtain ⟨f, hf, _⟩ := hbranches.symm.context (outline_context.mpr ⟨data, hc, rfl⟩)
    obtain ⟨data', hdata', _⟩ := outline_context.mp hf
    rw [hdata']
    rfl
  obtain ⟨n, w₃, h₃, hteardown₃⟩ := clearImports_ok (S := (· = c)) hlive rfl
  have hbeside : (w.sever c data).Beside w₃ :=
    hbeside₂.trans ((beside_clearImports c).of_ok h₃)
  have hsame : Graph.SameRegistry (w.sever c data).graph w₃.graph := hbeside.graph.sameRegistry
  have hteardown : (w.sever c data).TeardownSteps (· = c) w₃ := hteardown₂.trans hteardown₃
  refine ⟨w₃, ?_, .head (.sever rfl hc) hteardown, ?_,
    hteardown.keepsGuise.ownerOf? (ownerOf?_sever w c data), ?_⟩
  · rw [closeContext_apply, hc]
    dsimp only
    rw [bind_of_ok h₂, bind_of_ok h₃]
    rfl
  · rw [hsame.entries.contexts]
    exact hheld
  · rw [hsame.shape.outline]
    exact hbranches

theorem dropDeclarations_ok (ds : List DeclId) (hw : w.graph.Consistent)
    (hds : ∀ d ∈ ds, ∀ f, w.graph.outline.declaration d = some f → f.context = some c) :
    ∃ w', dropDeclarations ds w = .ok () w' ∧ w.TeardownSteps (· = c) w' ∧
      SameTree w.graph.outline w'.graph.outline ∧ w'.graph.heldContext = w.graph.heldContext ∧
      ∀ d ∈ ds, w'.graph.outline.declaration d = none := by
  unfold dropDeclarations
  induction ds generalizing w with
  | nil => exact ⟨w, rfl, .refl, .refl _, rfl, fun d hd => absurd hd List.not_mem_nil⟩
  | cons d rest ih =>
    have hone : ∃ w₁, (do
        if (← graph).hasDeclaration d then
          deleteDeclaration d : Edit Unit) w = .ok () w₁ ∧ w.TeardownSteps (· = c) w₁ ∧
        SameTree w.graph.outline w₁.graph.outline ∧
        w₁.graph.heldContext = w.graph.heldContext ∧ w₁.graph.outline.declaration d = none := by
      rw [bind_of_ok (show graph w = .ok w.graph w from rfl)]
      cases hd : w.graph.declaration? d with
      | none =>
        have hnot : ¬ w.graph.hasDeclaration d = true := by
          unfold hasDeclaration Store.contains
          unfold declaration? at hd
          rw [hd]
          exact Bool.false_ne_true
        rw [if_neg hnot]
        exact ⟨w, rfl, .refl, .refl _, rfl, Option.map_eq_none_iff.mpr hd⟩
      | some data =>
        have hhas : w.graph.hasDeclaration d = true := by
          unfold hasDeclaration Store.contains
          unfold declaration? at hd
          rw [hd]
          rfl
        have hform : w.graph.outline.declaration d = some data.form :=
          outline_declaration.mpr ⟨data, hd, rfl⟩
        have hholder : data.context = some c := hds d List.mem_cons_self _ hform
        have hdiscards := discards hd
        rw [if_pos hhas, deleteDeclaration_apply, hd]
        exact ⟨_, rfl, .single (.discard rfl hd hholder), hdiscards.sameTree, hdiscards.contexts,
          Option.map_eq_none_iff.mpr hdiscards.gone⟩
    obtain ⟨w₁, h₁, hteardown, htree, hheld, hgone⟩ := hone
    have hw₁ := hteardown.consistent hw
    obtain ⟨w₂, h₂, hteardown₂, htree₂, hheld₂, hgone₂⟩ := ih hw₁ fun d' hd' f hf =>
      hds d' (List.mem_cons_of_mem _ hd') f ((hteardown.prunes hw).declaration hf).1
    refine ⟨w₂, (bind_of_ok h₁).trans h₂, hteardown.trans hteardown₂, htree.trans htree₂,
      hheld₂.trans hheld, fun d' hd' => ?_⟩
    rcases List.mem_cons.mp hd' with rfl | hd'
    · cases hf : w₂.graph.outline.declaration d' with
      | none => rfl
      | some f =>
        rw [((hteardown₂.prunes hw₁).declaration hf).1] at hgone
        cases hgone
    · exact hgone₂ d' hd'

/-- **The second part of a teardown** drops what the context holds, and the
    context goes. -/
theorem freeContext_ok (hw : w.graph.Consistent) {f : Form}
    (hc : w.graph.outline.context c = some f) (hchildren : f.children = 0)
    (howner : w.graph.ownerOf? c = none) (hheld : w.graph.heldContext c = none) :
    ∃ w' data, freeContext c w = .ok () (w'.release c data) ∧ w.TeardownSteps (· = c) w' ∧
      w'.Bare c data := by
  obtain ⟨data, hdata, rfl⟩ := outline_context.mp hc
  let w₁ := w.onGraph (·.modifyContext c ({ · with uses := [] }))
  have hteardown₁ : w.TeardownSteps (· = c) w₁ := .single (.clearUses rfl)
  have h₁ : Graph.SameRegistry w.graph w₁.graph := (Beside.clearUses w c).graph.sameRegistry
  have hw₁ := h₁.consistent hw
  have hc₁ : w₁.graph.outline.context c = some data.form := h₁.shape.outline ▸ hc
  obtain ⟨w₂, h₂, hteardown₂, htree, hheld₂, hgone⟩ :=
    dropDeclarations_ok (c := c) (w₁.graph.localDeclarations c) hw₁ fun d hd fd hfd => by
      obtain ⟨f, hf, hmem⟩ := mem_localDeclarations_iff.mp hd
      obtain ⟨fd', hfd', hholder⟩ := hw₁.holds.own hf hmem
      cases hfd.symm.trans hfd'
      exact hholder
  have hw₂ := hteardown₂.consistent hw₁
  obtain ⟨own, hc₂⟩ := htree.symm.context hc₁
  obtain ⟨data₂, hdata₂, hform₂⟩ := outline_context.mp hc₂
  -- what the context still held would be among what was dropped
  have hown : own = 0 := by
    refine Multiset.eq_zero_of_forall_notMem fun d hd => ?_
    obtain ⟨fd, hfd, hholder⟩ := hw₂.holds.own hc₂ hd
    obtain ⟨f, hf, hmem⟩ := hw₁.holds.holder ((hteardown₂.prunes hw₁).declaration hfd).1 hholder
    rw [hgone d (mem_localDeclarations_iff.mpr ⟨f, hf, hmem⟩)] at hfd
    cases hfd
  have hteardown : w.TeardownSteps (· = c) w₂ := hteardown₁.trans hteardown₂
  have hbare : w₂.Bare c data₂ :=
    { context := hdata₂
      children := (Multiset.coe_eq_zero _).mp ((congrArg Form.children hform₂).trans hchildren)
      own := (Multiset.coe_eq_zero _).mp ((congrArg Form.own hform₂).trans hown)
      unowned := by
        have hnone := hteardown.keepsGuise.ownerOf? howner
        unfold ownerOf? at hnone
        rw [hdata₂] at hnone
        exact hnone
      unheld := (congrFun hheld₂ c).trans ((congrFun h₁.entries.contexts c).trans hheld) }
  refine ⟨w₂, data₂, ?_, hteardown, hbare⟩
  rw [freeContext_apply, hdata]
  dsimp only
  rw [bind_of_ok h₂]
  unfold releaseContext
  rw [needContext_bind, hdata₂]
  rfl

/-! ## 6. A subtree less -/

/-- What a teardown at most `n` levels deep does: it comes to where the context
    is bare, and then the context goes. -/
def TearsDown (n : Nat) : Prop :=
  ∀ (w : Workspace) (c : ContextId) (f : Form), w.graph.Consistent → w.graph.outline.Shallow n c →
    w.graph.outline.context c = some f → ∃ w' data,
      deleteContextWithin n c w = .ok () (w'.release c data) ∧
      w.TeardownSteps (w.graph.outline.Below c) w' ∧ w'.Bare c data

/-- The children of a context torn down one after another. -/
theorem deleteChildren_ok {n : Nat} (ih : TearsDown n) {S : ContextId → Prop}
    (children : List ContextId) (hw : w.graph.Consistent)
    (hshallow : ∀ z ∈ children, w.graph.outline.Shallow n z)
    (hanon : ∀ z ∈ children, ∀ f, w.graph.outline.context z = some f → f.anonymous = false)
    (hS : ∀ z ∈ children, ∀ x, w.graph.outline.Below z x → S x) :
    ∃ w', forEach (fun child => do
        if (← graph).hasContext child then
          deleteContextWithin n child) children w = .ok () w' ∧ w.TeardownSteps S w' ∧
      ∀ z ∈ children, w'.graph.outline.context z = none := by
  induction children generalizing w with
  | nil => exact ⟨w, rfl, .refl, fun z hz => absurd hz List.not_mem_nil⟩
  | cons z rest ihrest =>
    have hone : ∃ w₁, (do
        if (← graph).hasContext z then
          deleteContextWithin n z : Edit Unit) w = .ok () w₁ ∧ w.TeardownSteps S w₁ ∧
        w₁.graph.outline.context z = none := by
      rw [bind_of_ok (show graph w = .ok w.graph w from rfl)]
      have hhas : w.graph.hasContext z = (w.graph.outline.context z).isSome := by
        rw [outline_context_eq, Option.isSome_map]
        rfl
      cases hz : w.graph.outline.context z with
      | none =>
        rw [hhas, hz]
        exact ⟨w, rfl, .refl, hz⟩
      | some f =>
        obtain ⟨w₁, data, h₁, hteardown, hbare⟩ := ih w z f hw (hshallow z List.mem_cons_self) hz
        obtain ⟨_, _, hdead⟩ := released (hteardown.consistent hw) hbare
        have hnamed : data.anonymous = false := by
          obtain ⟨f₀, hf₀, _, hsame, _⟩ :=
            (hteardown.prunes hw).context (outline_context.mpr ⟨data, hbare.context, rfl⟩)
          exact hsame.symm.trans (hanon z List.mem_cons_self f₀ hf₀)
        rw [hhas, hz]
        refine ⟨_, h₁, .tail (hteardown.mono (hS z List.mem_cons_self)) ?_, hdead⟩
        exact .release (hS z List.mem_cons_self z .refl) hbare hnamed
    obtain ⟨w₁, h₁, hteardown₁, hdead₁⟩ := hone
    have hw₁ := hteardown₁.consistent hw
    have hprunes₁ := hteardown₁.prunes hw
    obtain ⟨w₂, h₂, hteardown₂, hdead₂⟩ := ihrest hw₁
      (fun z' hz' => hprunes₁.shallow (hshallow z' (List.mem_cons_of_mem _ hz')))
      (fun z' hz' f' hf' => by
        obtain ⟨f, hf, _, hsame, _⟩ := hprunes₁.context hf'
        exact hsame.symm.trans (hanon z' (List.mem_cons_of_mem _ hz') f hf))
      fun z' hz' x hx => hS z' (List.mem_cons_of_mem _ hz') x (hprunes₁.below hx)
    refine ⟨w₂, (bind_of_ok h₁).trans h₂, hteardown₁.trans hteardown₂, fun z' hz' => ?_⟩
    rcases List.mem_cons.mp hz' with rfl | hz'
    · exact (hteardown₂.prunes hw₁).dead hdead₁
    · exact hdead₂ z' hz'

/-- **A teardown does not fail, and the context is gone after it.** -/
theorem deleteContextWithin_ok (n : Nat) : TearsDown n := by
  induction n with
  | zero => exact fun w c f hw hshallow _ => hshallow.elim
  | succ n ih =>
    intro w c f hw hshallow hc
    obtain ⟨data, hdata, rfl⟩ := outline_context.mp hc
    obtain ⟨w₁, h₁, hteardown₁, hheld, howner, hbranches⟩ := closeContext_ok hw hdata
    have hw₁ := hteardown₁.consistent hw
    have hprunes₁ := hteardown₁.prunes hw
    obtain ⟨f₁, hc₁, _⟩ := hbranches.symm.context hc
    obtain ⟨data₁, hdata₁, rfl⟩ := outline_context.mp hc₁
    have hchild : ∀ z ∈ data₁.children, w₁.graph.outline.Child c z :=
      fun z hz => ⟨_, hc₁, hz⟩
    let S : ContextId → Prop := fun x => w₁.graph.outline.Below c x ∧ x ≠ c
    obtain ⟨w₂, h₂, hteardown₂, hdead₂⟩ := deleteChildren_ok ih (S := S) data₁.children hw₁
      (fun z hz => hprunes₁.shallow (hshallow z (hprunes₁.child (hchild z hz))))
      (fun z hz f hf => by
        obtain ⟨f', hf', hanon, _⟩ := hw₁.tree.child hc₁ hz
        cases hf.symm.trans hf'
        exact hanon)
      fun z hz x hx => by
        refine ⟨.head (hchild z hz) hx, fun e => ?_⟩
        -- a child that has its parent below it would be its own child
        subst e
        exact hw₁.tree.ne_of_below hx (hchild z hz) rfl
    have hw₂ := hteardown₂.consistent hw₁
    have hprunes₂ := hteardown₂.prunes hw₁
    have hstays : ¬ S c := fun h => h.2 rfl
    obtain ⟨f₂, hc₂, hchildless⟩ := hprunes₂.live hstays hc₁
    -- what children are left would be there
    have hchildren : f₂.children = 0 := by
      refine Multiset.eq_zero_of_forall_notMem fun z hz => ?_
      obtain ⟨fz, hfz, _⟩ := hw₂.tree.child hc₂ hz
      obtain ⟨f, hf, hmem⟩ := hprunes₂.child ⟨f₂, hc₂, hz⟩
      cases hc₁.symm.trans hf
      rw [hdead₂ z hmem] at hfz
      cases hfz
    obtain ⟨w₃, data₃, h₃, hteardown₃, hbare⟩ := freeContext_ok hw₂ hc₂ hchildren
      (hteardown₂.keepsGuise.ownerOf? howner) ((hprunes₂.held c hstays).trans hheld)
    have hself : ∀ x, x = c → w.graph.outline.Below c x := fun x e => e ▸ .refl
    refine ⟨w₃, data₃, ?_, ?_, hbare⟩
    · unfold deleteContextWithin
      rw [bind_of_ok h₁, needContext_bind, hdata₁]
      dsimp only
      rw [bind_of_ok h₂]
      exact h₃
    · refine ((hteardown₁.mono hself).trans (hteardown₂.mono fun x hx => ?_)).trans
        (hteardown₃.mono hself)
      exact hprunes₁.below hx.1

theorem deleteContext_error (hc : w.graph.context? c = none) :
    deleteContext c w = .error (.staleContext c) w := by
  unfold deleteContext
  rw [bind_of_ok (show graph w = .ok w.graph w from rfl)]
  unfold chainBound deleteContextWithin
  rw [bind_apply, closeContext_apply, hc]

/-- **A context that is there is torn down.** -/
theorem deleteContext_ok {data : Context} (hw : w.graph.Consistent)
    (hc : w.graph.context? c = some data) : ∃ w' data',
      deleteContext c w = .ok () (w'.release c data') ∧ w.TeardownSteps (w.graph.outline.Below c) w' ∧
      w'.Bare c data' := by
  obtain ⟨w', data', h, hteardown, hbare⟩ :=
    deleteContextWithin_ok _ w c _ hw (shallow hw.tree.acyclic c)
      (outline_context.mpr ⟨data, hc, rfl⟩)
  refine ⟨w', data', ?_, hteardown, hbare⟩
  unfold deleteContext
  rw [bind_of_ok (show graph w = .ok w.graph w from rfl)]
  exact h

/-- **What deleting a context comes to**: it fails and changes nothing if the
    context is not there; otherwise the context is torn down. -/
theorem after_deleteContext {P : Workspace → Prop} {c : ContextId} {w : Workspace}
    (hw : w.graph.Consistent) (hkeep : w.graph.context? c = none → P w)
    (htorn : ∀ w' data, w.TeardownSteps (w.graph.outline.Below c) w' → w'.Bare c data →
      P (w'.release c data)) : P ((deleteContext c).after w) := by
  cases hc : w.graph.context? c with
  | none =>
    rw [after_eq_of_error (deleteContext_error hc)]
    exact hkeep hc
  | some data =>
    obtain ⟨w', data', h, hteardown, hbare⟩ := deleteContext_ok hw hc
    rw [after_eq_of_ok h]
    exact htorn w' data' hteardown hbare

/-- **After a context is torn down the graph is in order if it was.** -/
theorem upholds_deleteContext (c : ContextId) : Follows Upholds (deleteContext c) := by
  intro w hw
  refine after_deleteContext hw.toConsistent (fun _ => Upholds.refl w hw)
    fun w' data hteardown hbare => ?_
  have hprunes := hteardown.prunes hw.toConsistent
  obtain ⟨hconsistent, hprunes', hdead⟩ := released (hteardown.consistent hw.toConsistent) hbare
  have hself : ∀ x, x = c → w.graph.outline.Below c x := fun x e => e ▸ .refl
  have hboth := hprunes.trans (hprunes'.mono hself)
  exact ⟨hboth.orderly hw hconsistent hdead, hboth.descends⟩

theorem upholds_clean (c : ContextId) (keep : List Node) : Follows Upholds (clean c keep) :=
  follows_clean upholds_deleteDeclaration upholds_deleteContext c keep

end Edit

end ScopeGraph
