/-
  File:      ScopeGraph/Proofs/Growth.lean
  Subject:   The steps in which calls change the tree of contexts.

  Whatever a call does to the tree, it does in few kinds of steps: a context is cut
  from its parent, goes when it has no children, is linked to a parent that it is not
  above, or is new. What the steps keep holds in every state, and this asks nothing of
  how often handles are given out: nothing is said of the parent of an anonymous
  context, which may be gone and may have come back as another one.

  * `Outline.Nested`: parents and children know of one another, and children lead
    nowhere back;
  * `lineage_of_below`: so the way down to a context is the way up from it;
  * `Outline.Shrinking`, `Outline.Growing`: the steps, and what they keep;
  * `Change.grows`: every change is made of such steps;
  * `Workspace.nested_run`: every state is nested.
-/
import ScopeGraph.Proofs.Registration

namespace ScopeGraph

/-! ## 1. Ways down and ways up -/

namespace Outline

/-- Parents and children know of one another, and children lead nowhere back. -/
structure Nested (o : Outline) : Prop extends o.Matched where
  acyclic : o.Acyclic

/-- A context is there and is not anonymous. -/
def Named (o : Outline) (c : ContextId) : Prop := ∃ f, o.context c = some f ∧ f.anonymous = false

end Outline

namespace Graph

open Outline

variable {g : Graph} {c x : ContextId}

/-- The way up from a context that is below another one leads to that one, and all
    contexts on it before that one are named. -/
theorem exists_way_up (hg : g.outline.Nested) (h : g.outline.Below c x) :
    ∃ below, below.Nodup ∧ (∀ y ∈ below, g.outline.Below y x ∧ g.outline.Named y) ∧
      ∀ n, ∃ above, g.lineageWithin (below.length + (n + 1)) x = below ++ c :: above := by
  induction h with
  | refl =>
    refine ⟨[], List.nodup_nil, nofun, fun n => ?_⟩
    rw [List.length_nil, Nat.zero_add]
    exact ⟨_, rfl⟩
  | @tail p x _ hchild ih =>
    obtain ⟨below, hnodup, hbelow, hline⟩ := ih
    obtain ⟨f, hf, hmem⟩ := hchild
    obtain ⟨fx, hfx, hanon, hparent⟩ := hg.listed p x f hf hmem
    refine ⟨x :: below, List.nodup_cons.mpr ⟨fun hx => ?_, hnodup⟩,
      List.forall_mem_cons.mpr ⟨⟨.refl, fx, hfx, hanon⟩, fun y hy => ?_⟩, fun n => ?_⟩
    · exact hg.acyclic x (.tail' (hbelow x hx).1 ⟨f, hf, hmem⟩)
    · exact ⟨(hbelow y hy).1.tail ⟨f, hf, hmem⟩, (hbelow y hy).2⟩
    · obtain ⟨above, habove⟩ := hline n
      have hup : g.parent? x = some p := by rw [parent?_eq, parent?_of_context hfx, hparent]
      refine ⟨above, ?_⟩
      rw [List.length_cons, Nat.succ_add_eq_add_succ, ← Nat.add_succ]
      unfold lineageWithin
      rw [hup]
      exact congrArg (x :: ·) habove

/-- **The way down to a context is the way up from it.** -/
theorem lineage_of_below (hg : g.outline.Nested) (h : g.outline.Below c x) :
    ∃ below above, g.lineage x = below ++ c :: above ∧ ∀ y ∈ below, g.outline.Named y := by
  obtain ⟨below, hnodup, hbelow, hline⟩ := exists_way_up hg h
  have hle : below.length ≤ g.contexts.capacity := by
    refine length_le_of_live hnodup fun y hy => ?_
    obtain ⟨f, hf, _⟩ := (hbelow y hy).2
    exact Option.isSome_iff_exists.mpr ⟨f, hf⟩
  obtain ⟨above, habove⟩ := hline (g.contexts.capacity - below.length)
  refine ⟨below, above, ?_, fun y hy => (hbelow y hy).2⟩
  have hbound : below.length + (g.contexts.capacity - below.length + 1) = g.chainBound := by
    unfold chainBound
    omega
  rw [hbound] at habove
  exact habove

/-- What does not have a context above it is not below the context. -/
theorem not_below_of_isAtOrAbove (hg : g.outline.Nested) (h : g.isAtOrAbove c x = false) :
    ¬ g.outline.Below c x := by
  intro hbelow
  obtain ⟨below, above, hline, _⟩ := lineage_of_below hg hbelow
  have hmem : c ∈ g.lineage x := hline ▸ List.mem_append_right below List.mem_cons_self
  exact of_decide_eq_false h hmem

end Graph

/-! ## 2. Steps -/

namespace Outline

/-- A step that adds nothing to the tree: all stays in its place, a context is cut from
    its parent, or one goes that has no children and is nobody's child. -/
inductive Shrinking (o : Outline) : Outline → Prop where
  | same {o' : Outline} : SameBranches o o' → Shrinking o o'
  | unlink {p c : ContextId} : o.parent? c = some p → Shrinking o (o.unlink p c)
  | erase {c : ContextId} :
      (∀ y, ¬ o.Child c y) → (∀ y, ¬ o.Child y c) → Shrinking o (o.erase c)

/-- A step that may add to the tree as well: a context without a parent is linked to one
    that it is not above, or a context is new. Tops are linked only where they may be
    (`nest`). -/
inductive Growing (nest : Prop) (o : Outline) : Outline → Prop where
  | shrink {o' : Outline} : Shrinking o o' → Growing nest o o'
  | link {p c : ContextId} {fp fc : Form} :
      o.context p = some fp → o.context c = some fc → fc.anonymous = false → fc.parent = none →
      (fc.isTop = true → nest) → ¬ o.Below c p → Growing nest o (o.link p c)
  | insert {c : ContextId} {f : Form} :
      o.Fresh f → o.context c = none → Growing nest o (o.insert c f)

variable {o o' : Outline} {p c : ContextId}

theorem Shrinking.child (h : o.Shrinking o') {y z : ContextId} (hz : o'.Child y z) :
    o.Child y z := by
  cases h with
  | same h => exact h.symm.child hz
  | unlink => exact child_of_unlink hz
  | erase => exact child_of_erase hz

/-- What is gone does not come back. -/
theorem Shrinking.gone (h : o.Shrinking o') {x : ContextId} (hx : o.context x = none) :
    o'.context x = none := by
  cases h with
  | same h => exact Option.map_eq_none_iff.mp ((h x).trans (Option.map_eq_none_iff.mpr hx))
  | unlink => exact Option.map_eq_none_iff.mpr hx
  | @erase c =>
    show (if x = c then none else o.context x) = none
    rw [hx, ite_self]

theorem Shrinking.matched (h : o.Shrinking o') (hm : o.Matched) : o'.Matched := by
  cases h with
  | same h => exact h.matched hm
  | unlink hc => exact hm.unlink hc
  | erase hleaf hfree => exact hm.erase hleaf hfree

theorem Acyclic.mono (ha : o.Acyclic) (h : ∀ {y z}, o'.Child y z → o.Child y z) : o'.Acyclic :=
  fun c hc => ha c (Relation.TransGen.mono (fun _ _ => h) _ _ hc)

/-- **A context may be linked to what it is not above**: a way that goes by the new
    link comes to the parent first and goes on from the child. -/
theorem Acyclic.link (ha : o.Acyclic) (hfree : ¬ o.Below c p) : (o.link p c).Acyclic := by
  have hway : ∀ {x y}, Relation.TransGen (o.link p c).Child x y →
      Relation.TransGen o.Child x y ∨ o.Below x p ∧ o.Below c y := by
    intro x y h
    induction h with
    | single hstep =>
      rcases child_of_link hstep with hold | ⟨rfl, rfl⟩
      · exact .inl (.single hold)
      · exact .inr ⟨.refl, .refl⟩
    | tail _ hstep ih =>
      rcases child_of_link hstep with hold | ⟨rfl, rfl⟩
      · exact ih.imp (·.tail hold) fun hby => ⟨hby.1, hby.2.tail hold⟩
      · rcases ih with hway | hby
        · exact .inr ⟨hway.to_reflTransGen, .refl⟩
        · exact absurd hby.2 hfree
  intro x hx
  rcases hway hx with hold | ⟨hxp, hcx⟩
  · exact ha x hold
  · exact hfree (hcx.trans hxp)

/-- **Every step keeps a nested tree.** -/
theorem Growing.nested {nest : Prop} (h : o.Growing nest o') (ho : o.Nested) : o'.Nested := by
  cases h with
  | shrink h => exact ⟨h.matched ho.toMatched, ho.acyclic.mono h.child⟩
  | link hp hc hanon hroot _ hfree =>
    exact ⟨ho.toMatched.link hp hc hanon hroot, ho.acyclic.link hfree⟩
  | insert hf hdead => exact ⟨ho.toMatched.insert hf hdead, ho.acyclic.mono (child_of_insert hf)⟩

/-- No top is anonymous. -/
def TopsNamed (o : Outline) : Prop :=
  ∀ c f, o.context c = some f → f.isTop = true → f.anonymous = false

/-- **No step makes a top anonymous.** -/
theorem Growing.topsNamed {nest : Prop} (h : o.Growing nest o') (ho : o.TopsNamed) :
    o'.TopsNamed := by
  have hplace : ∀ {parent children}, (o.place parent children).TopsNamed := by
    intro parent children x f' hx htop
    obtain ⟨f, hf, rfl⟩ := of_place hx
    exact ho x f hf htop
  cases h with
  | shrink h =>
    cases h with
    | same h =>
      intro x f' hx htop
      obtain ⟨f, hf, hbranch⟩ := exists_of_map_eq (h x) hx
      unfold Form.branch at hbranch
      simp only [Prod.mk.injEq] at hbranch
      rw [← hbranch.2.1]
      exact ho x f hf (hbranch.2.2.2.trans htop)
    | unlink => exact hplace
    | erase => exact fun x f hx => ho x f (of_erase hx).2
  | link => exact hplace
  | @insert c f hf =>
    intro x f' hx htop
    by_cases hxc : x = c
    · subst hxc
      cases insert_self.symm.trans hx
      exact (hf.top htop).2
    · rw [insert_of_ne hxc] at hx
      exact ho x f' hx htop

/-- What every step keeps, a sequence of steps keeps. -/
theorem kept_of_steps {R : Outline → Outline → Prop} {P : Outline → Prop}
    (hkeep : ∀ {o o'}, R o o' → P o → P o') (h : Relation.ReflTransGen R o o') (ho : P o) :
    P o' := by
  induction h with
  | refl => exact ho
  | tail _ hstep ih => exact hkeep hstep ih

end Outline

namespace Workspace

open ScopeGraph.Graph Outline

/-- One workspace's tree comes from another one's by steps that add nothing. -/
def Shrinks (w w' : Workspace) : Prop :=
  Relation.ReflTransGen Shrinking w.graph.outline w'.graph.outline

/-- One workspace's tree comes from another one's by steps. -/
def Grows (nest : Prop) (w w' : Workspace) : Prop :=
  Relation.ReflTransGen (Growing nest) w.graph.outline w'.graph.outline

instance : IsPreorder Workspace Shrinks where
  refl _ := .refl
  trans _ _ _ := .trans

instance (nest : Prop) : IsPreorder Workspace (Grows nest) where
  refl _ := .refl
  trans _ _ _ := .trans

variable {nest : Prop} {w w' : Workspace}

namespace Shrinks

theorem grows (h : w.Shrinks w') : w.Grows nest w' :=
  Relation.ReflTransGen.mono (fun _ _ => Growing.shrink) _ _ h

theorem child (h : w.Shrinks w') {y z : ContextId} (hz : w'.graph.outline.Child y z) :
    w.graph.outline.Child y z := by
  unfold Shrinks at h
  generalize w'.graph.outline = o' at h hz
  induction h with
  | refl => exact hz
  | tail _ hstep ih => exact ih (hstep.child hz)

theorem gone (h : w.Shrinks w') {x : ContextId} (hx : w.graph.outline.context x = none) :
    w'.graph.outline.context x = none :=
  kept_of_steps (P := fun o => o.context x = none) (fun hstep => hstep.gone) h hx

theorem matched (h : w.Shrinks w') (hw : w.graph.outline.Matched) : w'.graph.outline.Matched :=
  kept_of_steps Shrinking.matched h hw

end Shrinks

theorem Grows.nested (h : w.Grows nest w') (hw : w.graph.outline.Nested) :
    w'.graph.outline.Nested := kept_of_steps Growing.nested h hw

theorem Beside.shrinks (h : w.Beside w') : w.Shrinks w' := by
  unfold Shrinks
  rw [h.graph.sameRegistry.shape.outline]

end Workspace

theorem Graph.sameBranches_of_ties {g g' : Graph} (h : g'.ties = g.ties) :
    g.outline.SameBranches g'.outline := by
  intro x
  have hx := congrArg (fun s => (Store.get? s x).map fun ties : Ties =>
    (ties.parent, ties.anonymous, (ties.children : Multiset ContextId), ties.links.isTop)) h
  simp only [ties, Store.get?_map, Option.map_map] at hx
  rw [outline_context_eq, outline_context_eq, Option.map_map, Option.map_map]
  exact hx

theorem SameTies.shrinks {w w' : Workspace} (h : SameTies w w') : w.Shrinks w' :=
  .single (.same (Graph.sameBranches_of_ties h.ties))

/-! ## 3. Edits -/

namespace Workspace

open ScopeGraph.Graph Outline

variable {nest : Prop} {w : Workspace} {p c : ContextId}

/-- A context taken from below its parent, if it has one. -/
theorem shrinks_uprooted {parent child : Context} (hp : w.graph.context? p = some parent)
    (hc : w.graph.context? c = some child) :
    let w₁ := whenSome child.parent (fun q w => w.onGraph (·.unlinkChild q c)) w
    w.Shrinks w₁ ∧ (∃ fp, w₁.graph.outline.context p = some fp) ∧
      ∃ fc, w₁.graph.outline.context c = some fc ∧ fc.parent = none ∧
        fc.anonymous = child.anonymous ∧ fc.isTop = child.isTop := by
  have hparent : w.graph.outline.context p = some parent.form := outline_context.mpr ⟨_, hp, rfl⟩
  have hform : w.graph.outline.context c = some child.form := outline_context.mpr ⟨_, hc, rfl⟩
  cases hq : child.parent with
  | none => exact ⟨.refl, ⟨_, hparent⟩, _, hform, hq, rfl, rfl⟩
  | some q =>
    have houtline := outline_unlink w.graph q c
    have hup : w.graph.outline.parent? c = some q := (parent?_of_context hform).trans hq
    refine ⟨?_, ?_⟩
    · show Relation.ReflTransGen Shrinking _ (w.graph.unlinkChild q c).outline
      rw [houtline]
      exact .single (.unlink hup)
    · show (∃ fp, (w.graph.unlinkChild q c).outline.context p = some fp) ∧
        ∃ fc, (w.graph.unlinkChild q c).outline.context c = some fc ∧ _
      rw [houtline]
      exact ⟨⟨_, place_context hparent⟩, _, place_context hform, if_pos ⟨rfl, hq⟩, rfl, rfl⟩

/-- A context that is cut from its parent may be linked to one that it is not above. -/
theorem grows_graft (hw : w.graph.outline.Nested) {parent child : Context}
    (hp : w.graph.context? p = some parent) (hc : w.graph.context? c = some child)
    (hanon : child.anonymous = false) (hfree : w.graph.isAtOrAbove c p = false)
    (hnest : child.isTop = true → nest) (registered : Bool) :
    w.Grows nest (((whenSome child.parent (fun q w => w.onGraph (·.unlinkChild q c)) w).onGraph
      (·.linkChild p c)).registerSubtree c registered) := by
  obtain ⟨hcut, ⟨fp, hfp⟩, fc, hfc, hroot, hanon', htop⟩ := shrinks_uprooted hp hc
  have hbelow : ¬ (whenSome child.parent (fun q w => w.onGraph (·.unlinkChild q c))
      w).graph.outline.Below c p := fun h =>
    not_below_of_isAtOrAbove hw hfree (Relation.ReflTransGen.mono (fun _ _ => hcut.child) _ _ h)
  have hregister := (SameTies.registerSubtree ((whenSome child.parent
    (fun q w => w.onGraph (·.unlinkChild q c)) w).onGraph (·.linkChild p c)) c registered).shrinks
  refine .trans hcut.grows (.trans (.single ?_) hregister.grows)
  show Growing nest _ (Graph.linkChild _ p c).outline
  rw [outline_link]
  exact .link hfp hfc (hanon'.trans hanon) hroot (fun h => hnest (htop ▸ h)) hbelow

theorem grows_adopt (hw : w.graph.outline.Nested) {parent child : Context}
    (hp : w.graph.context? p = some parent) (hc : w.graph.context? c = some child)
    (hanon : child.anonymous = false) (hfree : w.graph.isAtOrAbove c p = false)
    (hnest : child.isTop = true → nest) : w.Grows nest (w.adopt p c parent child) := by
  unfold adopt
  dsimp only
  split
  · exact grows_graft hw hp hc hanon hfree hnest _
  · exact grows_graft (w := w.warn .childOutsideParent) hw hp hc hanon hfree hnest _

theorem shrinks_abandon (hw : w.graph.outline.Matched) (hc : w.graph.outline.Child p c) :
    w.Shrinks (w.abandon p c) := by
  have hcut : w.Shrinks (w.onGraph (·.unlinkChild p c)) := by
    show Relation.ReflTransGen Shrinking _ (w.graph.unlinkChild p c).outline
    rw [outline_unlink]
    exact .single (.unlink (hw.listed.parent?_of_child hc))
  unfold abandon
  dsimp only
  split
  · exact hcut.trans (SameTies.registerSubtree _ c false).shrinks
  · exact hcut

/-- A context without children may go: it is cut from its parent before. -/
theorem shrinks_release (hw : w.graph.outline.Matched) {data : Context}
    (hc : w.graph.context? c = some data) (hleaf : ∀ y, ¬ w.graph.outline.Child c y) :
    w.Shrinks (w.release c data) := by
  have hform : w.graph.outline.context c = some data.form := outline_context.mpr ⟨data, hc, rfl⟩
  have hcut : w.Shrinks (w.onGraph (·.loosen c data)) := by
    show Relation.ReflTransGen Shrinking _ (w.graph.loosen c data).outline
    unfold loosen
    cases hp : data.parent with
    | none => exact .refl
    | some p =>
      cases data.anonymous with
      | true => exact .refl
      | false =>
        show Relation.ReflTransGen Shrinking _ (w.graph.unlinkChild p c).outline
        rw [outline_unlink]
        exact .single (.unlink ((parent?_of_context hform).trans hp))
  refine hcut.tail ?_
  rw [graph_release, outline_eraseContext]
  exact .erase (fun y hy => hleaf y (hcut.child hy)) (not_child_loosen hw.listed hc)

end Workspace

namespace Edit

open Workspace ScopeGraph.Graph Outline

variable {nest : Prop} {w w' : Workspace}

theorem shrinks_closeContext (c : ContextId) : Follows Shrinks (closeContext c) :=
  follows_closeContext (fun w c data _ => (SameTies.sever w c data).shrinks)
    (fun c target w => (beside_removeImport c target w).shrinks)
    (fun c w => (beside_clearImports c w).shrinks) c

/-- A context without children is freed: its declarations, which are in the tree nowhere,
    go first. -/
theorem shrinks_freeContext {c : ContextId} (hw : w.graph.outline.Matched)
    (hleaf : ∀ y, ¬ w.graph.outline.Child c y) : w.Shrinks ((freeContext c).after w) := by
  unfold after
  rw [freeContext_apply]
  cases w.graph.context? c with
  | none => exact .refl
  | some _ =>
    have huses : w.Shrinks (w.onGraph (·.modifyContext c ({ · with uses := [] }))) :=
      SameTies.shrinks (View.Same.onGraph (.modifyContext _ c fun _ => rfl))
    refine huses.trans (related_bind (sameTies_dropDeclarations _ _).shrinks fun _ w₂ hok => ?_)
    have hdropped : w.Shrinks w₂ := huses.trans ((sameTies_dropDeclarations _).of_ok hok).shrinks
    exact related_needContext fun data hc =>
      shrinks_release (hdropped.matched hw) hc fun y hy => hleaf y (hdropped.child hy)

theorem gone_of_freeContext {c : ContextId} (h : freeContext c w = .ok () w') :
    w'.graph.outline.context c = none := by
  rw [freeContext_apply] at h
  cases hc : w.graph.context? c with
  | none =>
    rw [hc] at h
    cases h
  | some _ =>
    rw [hc] at h
    obtain ⟨_, w₂, _, h⟩ := bind_eq_ok h
    unfold releaseContext at h
    rw [needContext_bind] at h
    cases hc₂ : w₂.graph.context? c with
    | none =>
      rw [hc₂] at h
      cases h
    | some data =>
      rw [hc₂] at h
      cases h
      rw [graph_release, outline_eraseContext]
      exact if_pos rfl

/-- An edit adds nothing to the tree, and where it succeeds a context is gone. -/
def Removes (c : ContextId) (e : Edit Unit) : Prop :=
  ∀ w, w.graph.outline.Matched → w.Shrinks (e.after w) ∧
    ∀ w', e w = .ok () w' → w'.graph.outline.context c = none

/-- A context that is gone already need not be removed. -/
theorem removes_of_present {c : ContextId} {e : Edit Unit} (he : Removes c e) :
    Removes c (do if (← graph).hasContext c then e) := by
  intro w hw
  show w.Shrinks (Edit.after (if w.graph.hasContext c then e else pure ()) w) ∧
    ∀ w', (if w.graph.hasContext c then e else pure ()) w = .ok () w' → _
  split
  · exact he w hw
  · next hdead =>
    refine ⟨.refl, fun w' h => ?_⟩
    cases h
    exact Option.map_eq_none_iff.mpr (Option.not_isSome_iff_eq_none.mp hdead)

/-- What makes each of a list of contexts go makes them all go: none comes back. -/
theorem removes_forEach {f : ContextId → Edit Unit} (hf : ∀ c, Removes c (f c))
    (cs : List ContextId) {w : Workspace} (hw : w.graph.outline.Matched) :
    w.Shrinks ((forEach f cs).after w) ∧
      ∀ w', forEach f cs w = .ok () w' → ∀ c ∈ cs, w'.graph.outline.context c = none := by
  induction cs generalizing w with
  | nil => exact ⟨.refl, nofun⟩
  | cons c cs ih =>
    have hfirst : ∀ {w₁}, f c w = .ok () w₁ → w.Shrinks w₁ := by
      intro w₁ h
      have hshrinks := (hf c w hw).1
      rwa [after_eq_of_ok h] at hshrinks
    refine ⟨related_bind (hf c w hw).1 fun _ w₁ h => (ih ((hfirst h).matched hw)).1, ?_⟩
    intro w' h
    obtain ⟨_, w₁, h₁, h⟩ := bind_eq_ok h
    obtain ⟨hrest, hgone⟩ := ih ((hfirst h₁).matched hw)
    rw [after_eq_of_ok h] at hrest
    exact List.forall_mem_cons.mpr ⟨hrest.gone ((hf c w hw).2 w₁ h₁), hgone w' h⟩

/-- **A context that is torn down has no children any more when it goes**: they all went
    before, and what a context has as a child is there. A teardown that fails on the way
    leaves the steps that were made. -/
theorem removes_deleteContextWithin (n : Nat) (c : ContextId) :
    Removes c (deleteContextWithin n c) := by
  induction n generalizing c with
  | zero => exact fun w _ => ⟨.refl, nofun⟩
  | succ n ih =>
    intro w hw
    refine ⟨related_bind (shrinks_closeContext c w) fun _ w₁ h₁ => related_needContext
      fun data hdata => ?_, fun w' h => ?_⟩
    · have hw₁ := ((shrinks_closeContext c).of_ok h₁).matched hw
      obtain ⟨hloop, hgone⟩ :=
        removes_forEach (fun child => removes_of_present (ih child)) data.children hw₁
      refine related_bind hloop fun _ w₂ h₂ => ?_
      rw [after_eq_of_ok h₂] at hloop
      refine shrinks_freeContext (hloop.matched hw₁) fun y hy => ?_
      -- A child left would have been one when the loop began, and those are all gone.
      obtain ⟨fc, hfc, hmem⟩ := hloop.child hy
      cases hfc.symm.trans (outline_context.mpr ⟨data, hdata, rfl⟩)
      obtain ⟨f, hf, hy⟩ := hy
      obtain ⟨fy, hfy, _⟩ := (hloop.matched hw₁).listed c y f hf hy
      cases hfy.symm.trans (hgone w₂ h₂ y hmem)
    · obtain ⟨_, _, _, h⟩ := bind_eq_ok h
      obtain ⟨_, _, _, h⟩ := bind_eq_ok h
      obtain ⟨_, _, _, h⟩ := bind_eq_ok h
      exact gone_of_freeContext h

/-- What has its parents and children matched is taken apart without breaking that. -/
def ShrinksMatched (w w' : Workspace) : Prop := w.graph.outline.Matched → w.Shrinks w'

instance : IsPreorder Workspace ShrinksMatched where
  refl _ _ := .refl
  trans _ _ _ h₁ h₂ hw := (h₁ hw).trans (h₂ ((h₁ hw).matched hw))

theorem shrinksMatched_deleteContext (c : ContextId) : Follows ShrinksMatched (deleteContext c) :=
  fun w hw => (removes_deleteContextWithin w.graph.chainBound c w hw).1

theorem shrinksMatched_clean (c : ContextId) (keep : List Node) :
    Follows ShrinksMatched (clean c keep) :=
  follows_clean (R := ShrinksMatched) (fun d w _ => (sameTies_deleteDeclaration d w).shrinks)
    shrinksMatched_deleteContext c keep

theorem grows_addChild {p c : ContextId} (hw : w.graph.outline.Nested)
    (hnest : (w.graph.top? c).isSome = true → nest) :
    w.Grows nest ((addChild p c).after w) := by
  refine after_addChild (P := w.Grows nest) .refl .refl fun parent child hp hc hanon _ hfree =>
    grows_adopt hw hp hc hanon hfree fun htop => hnest ?_
  by_contra hnone
  rw [isTop_eq_false_of_top? (Option.not_isSome_iff_eq_none.mp hnone) hc] at htop
  cases htop

theorem shrinksMatched_removeChild (p c : ContextId) : Follows ShrinksMatched (removeChild p c) :=
  fun w hw => after_removeChild (P := w.Shrinks) .refl fun parent hp hmem =>
    shrinks_abandon hw ⟨_, outline_context.mpr ⟨parent, hp, rfl⟩, hmem⟩

theorem grows_newContext (htidy : w.graph.contexts.Tidy) {made : Context}
    (hf : w.graph.outline.Fresh made.form) : w.Grows nest ((newContext made).after w) := by
  show Relation.ReflTransGen _ _ (w.graph.insertContext made).outline
  rw [outline_insertContext made htidy]
  exact .single (.insert hf (outline_nextContext made htidy))

theorem grows_createAnonymous (htidy : w.graph.contexts.Tidy) (p : ContextId) (range : Span) :
    w.Grows nest ((createAnonymous p range).after w) := by
  refine related_needContext fun parent hp => grows_newContext htidy
    ⟨rfl, rfl, rfl, fun q hq => ⟨rfl, ?_⟩, nofun⟩
  cases hq
  exact Option.isSome_iff_exists.mpr ⟨_, outline_context.mpr ⟨parent, hp, rfl⟩⟩

/-- A new context below a parent is made below nothing and then moved there. -/
theorem grows_createContext (htidy : w.graph.contexts.Tidy) (hw : w.graph.outline.Nested)
    (p : ContextId) (range : Span) : w.Grows nest ((createContext p range).after w) := by
  cases hp : w.graph.context? p with
  | none =>
    unfold createContext after
    rw [needContext_bind, hp]
    exact .refl
  | some parent =>
    rw [createContext_after hp]
    have hnew : w.Grows nest ((newContext { range := range }).after w) :=
      grows_newContext htidy ⟨rfl, rfl, rfl, nofun, nofun⟩
    refine hnew.trans (grows_addChild (hnew.nested hw) fun htop => ?_)
    have hget := context?_insertContext { range := range } htidy
      (w.graph.nextContext { range := range })
    rw [if_pos rfl] at hget
    have hnone : (w.graph.insertContext { range := range }).top?
        (w.graph.nextContext { range := range }) = none := by
      unfold top?
      rw [hget]
      rfl
    exact absurd htop (Option.not_isSome_iff_eq_none.mpr hnone)

end Edit

/-- **Every change is made of steps**, and a top is put below another context only by a
    change that does so. -/
theorem Change.grows (e : Change) {w : Workspace} (htidy : w.graph.contexts.Tidy)
    (hw : w.graph.outline.Nested) :
    w.Grows (w.nestsTop (.change e) = true) (e.apply w) := by
  by_cases htouch : e.touchesLinks = true
  · cases e with
    | createTop file range =>
      exact Edit.grows_newContext htidy ⟨rfl, rfl, rfl, nofun, fun _ => ⟨rfl, rfl⟩⟩
    | createContext p range => exact Edit.grows_createContext htidy hw p range
    | createAnonymous p range => exact Edit.grows_createAnonymous htidy p range
    | addImport c target position =>
      exact (Edit.beside_addImport c target position w).shrinks.grows
    | removeImport c target => exact (Edit.beside_removeImport c target w).shrinks.grows
    | clearImports c => exact (Edit.beside_clearImports c w).shrinks.grows
    | deleteContext c => exact (Edit.shrinksMatched_deleteContext c w hw.toMatched).grows
    | clean c keep => exact (Edit.shrinksMatched_clean c keep w hw.toMatched).grows
    | _ => cases htouch
  · by_cases hn : e.nests = true
    · cases e with
      | addChild p c => exact Edit.grows_addChild hw id
      | removeChild p c => exact (Edit.shrinksMatched_removeChild p c w hw.toMatched).grows
      | _ => cases hn
    · exact (sameTies (Bool.eq_false_iff.mpr htouch) (Bool.eq_false_iff.mpr hn) w).shrinks.grows

/-! ## 4. Sequences of calls -/

namespace Workspace

open ScopeGraph.Graph Outline

/-- One call is made of steps as well: a question asks nothing of the tree. -/
theorem grows_call (call : Call) {w : Workspace} (hw : w.Wired) (hn : w.graph.outline.Nested) :
    w.Grows (w.nestsTop call = true) (call.apply w) := by
  cases call with
  | change e => exact e.grows hw.tidy hn
  | question q =>
    show Relation.ReflTransGen _ _ (q.apply w).graph.outline
    rw [q.graph_apply]

theorem nested_empty (limits : Limits) : (empty limits).graph.outline.Nested where
  listed := nofun
  parent := nofun
  nodup := nofun
  acyclic := by
    intro c hc
    obtain ⟨_, ⟨f, hf, _⟩, _⟩ := Relation.TransGen.head'_iff.mp hc
    cases hf

/-- What every step keeps holds in every state. -/
theorem outline_run {P : Outline → Prop}
    (hkeep : ∀ {nest o o'}, Growing nest o o' → P o → P o') {w : Workspace} (hw : w.Wired)
    (hn : w.graph.outline.Nested) (calls : List Call) (hP : P w.graph.outline) :
    P (w.run calls).graph.outline := by
  induction calls generalizing w with
  | nil => exact hP
  | cons call rest ih =>
    have hgrows := grows_call call hw hn
    exact ih (wired_call hw call) (hgrows.nested hn) (kept_of_steps hkeep hgrows hP)

/-- **Parents and children know of one another in every state, and children lead nowhere
    back**, however often handles were given out. -/
theorem nested_run {w : Workspace} (hw : w.Wired) (hn : w.graph.outline.Nested)
    (calls : List Call) : (w.run calls).graph.outline.Nested :=
  outline_run Growing.nested hw hn calls hn

end Workspace

end ScopeGraph
