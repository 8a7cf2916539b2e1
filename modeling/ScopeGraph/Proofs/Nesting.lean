/-
  File:      ScopeGraph/Proofs/Nesting.lean
  Subject:   The symbol table stays in order while contexts change their kind and
             scope name, move in the tree, and are registered or not.

  An edit of a context makes paths out of date in all that is below it. What is
  not below it in the way the subtree is walked may have it above nonetheless
  (by way of an anonymous context), but is not registered then
  (`Flagged.below`). So it is enough to bring the subtree up to date.

  * `upholds_setScopeName`: a context gets another scope name;
  * `orderly_registerSubtree`: a context moves in the tree (`Regrafts`), or stays,
    and its subtree is registered as its parent is.
-/
import ScopeGraph.Proofs.Registry

namespace ScopeGraph

/-! ## 1. What stays up to date -/

/-- What the key of a context and of its declarations takes from the context
    itself. -/
def Form.standing (f : Form) : ContextKind × Bool × Bool × Path :=
  (f.kind, f.registered, f.anonymous, f.scope)

namespace Workspace

open ScopeGraph.Graph Outline

/-- What stands as it did, and has the path it had if it is registered, is up to
    date. -/
theorem currentOutside_of_frame {S : ContextId → Prop} {g g' : Graph} (hg : g.Current)
    (hheld : ∀ x, ¬ S x → g'.heldContext x = g.heldContext x)
    (hd : ∀ {d f}, g'.outline.declaration d = some f → g.outline.declaration d = some f ∧
      g'.heldDeclaration d = g.heldDeclaration d)
    (hkept : ∀ x, ¬ S x → (g'.outline.context x).map Form.standing =
      (g.outline.context x).map Form.standing)
    (hpath : ∀ x f, ¬ S x → g.outline.context x = some f → f.registered = true →
      g'.scopePath x = g.scopePath x) : CurrentOutside S g' := by
  refine ⟨fun x hx => ?_, fun d f hf hout => ?_⟩
  · unfold CurrentContext
    rw [hheld x hx, contextKey?_congr ?_ fun f hf hreg => hpath x f hx hf hreg]
    · exact hg.contexts x
    · have h := congrArg (Option.map Prod.snd) (hkept x hx)
      rw [Option.map_map, Option.map_map] at h
      exact h
  · obtain ⟨hold, hkey⟩ := hd hf
    unfold CurrentDeclaration
    rw [hkey, declarationKey?_congr (hf.trans hold.symm) fun f' c hf' hc => ?_]
    · exact hg.declarations d
    · cases hold.symm.trans hf'
      have hc' := hout c hc
      constructor
      · have h := congrArg (Option.any fun s : ContextKind × Bool × Bool × Path =>
          s.2.1 && s.1.registersDeclarations) (hkept c hc')
        rw [Option.any_map, Option.any_map] at h
        rw [registers_eq, registers_eq]
        exact h
      · intro hreg
        obtain ⟨fc, hfc, hregistered, _⟩ := registers_iff.mp hreg
        exact hpath c fc hc' hfc hregistered

theorem CurrentOutside.of_sameEntries {S : ContextId → Prop} {g g' : Graph} (hg : g.Current)
    (he : SameEntries g g') (hd : g'.outline.declaration = g.outline.declaration)
    (hkept : ∀ x, ¬ S x → (g'.outline.context x).map Form.standing =
      (g.outline.context x).map Form.standing)
    (hpath : ∀ x f, ¬ S x → g.outline.context x = some f → f.registered = true →
      g'.scopePath x = g.scopePath x) : CurrentOutside S g' :=
  currentOutside_of_frame hg (fun x _ => congrFun he.contexts x)
    (fun hf => ⟨hd ▸ hf, congrFun he.declarations _⟩) hkept hpath

theorem Settles.orderly {w w' : Workspace} (hs : Settles w w') (hw : w.graph.Consistent)
    (hr : w.graph.outline.Rooted) (hf : w.graph.outline.Flagged) (hc : w'.graph.Current) :
    w'.graph.Orderly where
  toConsistent := hs.consistent hw
  rooted := hs.shape.outline ▸ hr
  flagged := hs.shape.outline ▸ hf
  current := hc

end Workspace

/-! ## 2. Kind and scope name -/

namespace Outline

variable {o : Outline} {c : ContextId}

theorem sameBranches_modify (o : Outline) (c : ContextId) {f : Form → Form}
    (hf : ∀ a, (f a).branch = a.branch) : SameBranches o (o.modify c f) := by
  intro x
  show Option.map _ (if x = c then (o.context x).map f else o.context x) = _
  split
  · rw [Option.map_map]
    congr 1
    funext a
    exact hf a
  · rfl

theorem Holds.modify (hh : o.Holds) (c : ContextId) {f : Form → Form}
    (hf : ∀ a, (f a).own = a.own) : (o.modify c f).Holds := by
  refine hh.congr (fun x => ?_) rfl
  show Option.map _ (if x = c then (o.context x).map f else o.context x) = _
  split
  · rw [Option.map_map]
    congr 1
    funext a
    exact hf a
  · rfl

theorem Flagged.modify (hf : o.Flagged) (c : ContextId) {v : Form → Form}
    (hbranch : ∀ a, (v a).branch = a.branch) (hreg : ∀ a, (v a).registered = a.registered) :
    (o.modify c v).Flagged := by
  have hback : ∀ {x f'}, (o.modify c v).context x = some f' → ∃ f, o.context x = some f ∧
      f.parent = f'.parent ∧ f.anonymous = f'.anonymous ∧ f.registered = f'.registered := by
    intro x f' hx
    obtain ⟨f, hf, rfl⟩ := of_modify hx
    refine ⟨f, hf, ?_⟩
    split
    · have hb := hbranch f
      simp only [Form.branch, Prod.mk.injEq] at hb
      exact ⟨hb.1.symm, hb.2.1.symm, (hreg f).symm⟩
    · exact ⟨rfl, rfl, rfl⟩
  refine ⟨fun hx hanon hparent hp => ?_, fun hx hanon => ?_⟩
  · obtain ⟨f, hfx, hparent', hanon', hreg'⟩ := hback hx
    obtain ⟨fp, hfp, _, _, hregp⟩ := hback hp
    have h := hf.inherit hfx (hanon'.trans hanon) (hparent'.trans hparent) hfp
    rw [← hreg', ← hregp, h]
  · obtain ⟨f, hfx, _, hanon', hreg'⟩ := hback hx
    rw [← hreg']
    exact hf.anonymous hfx (hanon'.trans hanon)

end Outline

namespace Workspace

open ScopeGraph.Graph Outline

variable {w : Workspace} {c : ContextId}

/-- A context changed in a way that does not concern the tree or registration. -/
theorem consistent_modifyContext (hw : w.graph.Consistent) {f : Context → Context} {v : Form → Form}
    (hform : ∀ data, (f data).form = v data.form) (hkey : ∀ data, (f data).key = data.key)
    (hbranch : ∀ a, (v a).branch = a.branch) (hown : ∀ a, (v a).own = a.own) :
    (w.graph.modifyContext c f).Consistent := by
  have houtline := outline_modifyContext (g := w.graph) (c := c) hform
  exact
    { tree := houtline ▸ (sameBranches_modify _ c hbranch).tree hw.tree
      holds := houtline ▸ hw.holds.modify c hown
      entered := SameEntries.entered (View.Same.modifyContext _ c hkey) hw.entered }

theorem upholds_setKind (kind : ContextKind) :
    Upholds w ((w.onGraph (·.modifyContext c ({ · with kind := kind }))).syncContext c) := by
  intro hw
  let w₁ := w.onGraph (·.modifyContext c ({ · with kind := kind }))
  have houtline : w₁.graph.outline = w.graph.outline.modify c ({ · with kind := kind }) :=
    outline_modifyContext fun _ => rfl
  have hbranches : SameBranches w.graph.outline w₁.graph.outline :=
    houtline ▸ sameBranches_modify _ c fun _ => rfl
  have hw₁ : w₁.graph.Consistent :=
    consistent_modifyContext hw.toConsistent (v := ({ · with kind := kind })) (fun _ => rfl)
      (fun _ => rfl) (fun _ => rfl) fun _ => rfl
  have hagree : ∀ y, w.graph.outline.Agree w₁.graph.outline y := by
    intro y
    unfold Agree
    rw [houtline]
    show Option.map _ (if y = c then (w.graph.outline.context y).map _ else _) = _
    split
    · rw [Option.map_map]
      rfl
    · rfl
  have hout : CurrentOutside (· = c) w₁.graph := by
    refine CurrentOutside.of_sameEntries hw.current (.modifyContext _ c fun _ => rfl) (houtline ▸ rfl)
      (fun x hx => ?_) fun x _ _ _ _ => ?_
    · rw [houtline, modify_of_ne _ _ hx]
    · obtain ⟨l, hl⟩ := hw.tree.line x
      exact scopePath_of_agree hl fun y _ => hagree y
  have hs := settles_syncContext w₁ c
  refine ⟨hs.orderly hw₁ (hbranches.rooted hw.rooted) ?_ (current_syncContext hw₁.holds hout), ?_⟩
  · exact houtline ▸ hw.flagged.modify c (fun _ => rfl) fun _ => rfl
  · rw [hs.shape.outline]
    exact hbranches.descends

/-- **Another scope name is another path for the subtree.** What has the context
    above it and is not in the subtree is not registered. -/
theorem upholds_setScopeName (name : QualName) :
    Upholds w ((w.onGraph (·.modifyContext c ({ · with scopeName := name }))).syncSubtree c) := by
  intro hw
  let w₁ := w.onGraph (·.modifyContext c ({ · with scopeName := name }))
  have houtline : w₁.graph.outline = w.graph.outline.modify c ({ · with scope := name.path }) :=
    outline_modifyContext fun _ => rfl
  have hbranches : SameBranches w.graph.outline w₁.graph.outline :=
    houtline ▸ sameBranches_modify _ c fun _ => rfl
  have hw₁ : w₁.graph.Consistent :=
    consistent_modifyContext hw.toConsistent (v := ({ · with scope := name.path })) (fun _ => rfl)
      (fun _ => rfl) (fun _ => rfl) fun _ => rfl
  have hout : CurrentOutside (w₁.graph.outline.Below c) w₁.graph := by
    refine CurrentOutside.of_sameEntries hw.current (.modifyContext _ c fun _ => rfl) (houtline ▸ rfl)
      (fun x hx => ?_) fun x f hx hf hreg => ?_
    · have hne : x ≠ c := fun e => hx (e ▸ .refl)
      rw [houtline, modify_of_ne _ _ hne]
    · obtain ⟨l, hl⟩ := hw.tree.line x
      refine scopePath_of_agree hl fun y hy => .of_eq ?_
      have hne : y ≠ c := by
        rintro rfl
        exact hx (hbranches.below (hw.flagged.below hw.tree hl hf hreg hy))
      rw [houtline, modify_of_ne _ _ hne]
  have hs := settles_syncSubtree w₁ c
  refine ⟨hs.orderly hw₁ (hbranches.rooted hw.rooted) ?_
    (current_syncSubtree hw₁.tree hw₁.holds hout), ?_⟩
  · exact houtline ▸ hw.flagged.modify c (fun _ => rfl) fun _ => rfl
  · rw [hs.shape.outline]
    exact hbranches.descends

end Workspace

/-! ## 3. Marking a subtree -/

namespace Outline

variable {o : Outline}

/-- The outline with some contexts marked as registered or not; an anonymous
    context never is. -/
def mark (o : Outline) (cs : List ContextId) (registered : Bool) : Outline :=
  { o with context := fun x => if x ∈ cs then (o.context x).map fun f =>
      { f with registered := registered && !f.anonymous } else o.context x }

variable {cs : List ContextId} {registered : Bool} {x : ContextId} {f : Form}

theorem mark_of_mem (h : x ∈ cs) (hx : o.context x = some f) : (o.mark cs registered).context x =
    some { f with registered := registered && !f.anonymous } := by
  have hmap : (o.mark cs registered).context x = (o.context x).map _ := if_pos h
  rw [hmap, hx]
  rfl

theorem mark_of_not_mem (h : x ∉ cs) : (o.mark cs registered).context x = o.context x := if_neg h

theorem of_mark (hx : (o.mark cs registered).context x = some f) : ∃ f₀, o.context x = some f₀ ∧
    f = if x ∈ cs then { f₀ with registered := registered && !f₀.anonymous } else f₀ := by
  by_cases hmem : x ∈ cs
  · have hmap : (o.context x).map _ = some f := (if_pos hmem).symm.trans hx
    obtain ⟨f₀, hf₀, rfl⟩ := Option.map_eq_some_iff.mp hmap
    exact ⟨f₀, hf₀, (if_pos hmem).symm⟩
  · exact ⟨f, (mark_of_not_mem hmem).symm.trans hx, (if_neg hmem).symm⟩

/-- Marking changes nothing but the mark. -/
theorem map_mark {α : Type} (v : Form → α) (hv : ∀ f b, v { f with registered := b } = v f)
    (o : Outline) (cs : List ContextId) (registered : Bool) (x : ContextId) :
    ((o.mark cs registered).context x).map v = (o.context x).map v := by
  by_cases hx : x ∈ cs
  · cases hf : o.context x with
    | none =>
      have hnone : (o.mark cs registered).context x = none := (if_pos hx).trans (by rw [hf]; rfl)
      rw [hnone]
    | some f =>
      rw [mark_of_mem hx hf]
      exact congrArg some (hv f _)
  · rw [mark_of_not_mem hx]

theorem mark_cons (o : Outline) (c : ContextId) (cs : List ContextId) (registered : Bool) :
    (o.modify c fun f => { f with registered := registered && !f.anonymous }).mark cs registered =
      o.mark (c :: cs) registered := by
  unfold mark modify
  congr 1
  funext x
  by_cases hx : x = c
  · by_cases hmem : x ∈ cs
    · simp only [if_pos hx, if_pos hmem, if_pos (List.mem_cons_of_mem c hmem), Option.map_map]
      rfl
    · simp only [if_pos hx, if_neg hmem, if_pos (List.mem_cons.mpr (.inl hx))]
  · by_cases hmem : x ∈ cs
    · simp only [if_neg hx, if_pos hmem, if_pos (List.mem_cons_of_mem c hmem)]
    · have hnot : x ∉ c :: cs := fun h => (List.mem_cons.mp h).elim hx hmem
      simp only [if_neg hx, if_neg hmem, if_neg hnot]

end Outline

namespace Graph

theorem outline_foldl_mark (cs : List ContextId) (registered : Bool) (g : Graph) :
    (cs.foldl (fun g c => g.modifyContext c fun data =>
      { data with registered := registered && !data.anonymous }) g).outline =
      g.outline.mark cs registered := by
  induction cs generalizing g with
  | nil => exact (congrArg (Outline.mk · _) (funext fun x => if_neg List.not_mem_nil)).symm
  | cons c rest ih =>
    rw [List.foldl_cons, ih, outline_modifyContext (v := fun f =>
      { f with registered := registered && !f.anonymous }) fun _ => rfl, Outline.mark_cons]

theorem View.Same.foldl_mark {β γ δ : Type} {V : View β γ δ}
    (hV : ∀ data b, V.context { data with registered := b } = V.context data)
    (cs : List ContextId) (registered : Bool) (g : Graph) :
    V.Same g (cs.foldl (fun g c => g.modifyContext c fun data =>
      { data with registered := registered && !data.anonymous }) g) :=
  related_foldl (fun g c => modifyContext g c fun data => hV data _) cs g

end Graph

namespace Workspace

open ScopeGraph.Graph Outline

variable (w : Workspace) (c : ContextId) (registered : Bool)

theorem outline_markSubtree : (w.markSubtree c registered).graph.outline =
    w.graph.outline.mark (w.graph.subtree c) registered := outline_foldl_mark _ registered w.graph

theorem sameStock_registerSubtree :
    SameStock w.graph (w.registerSubtree c registered).graph :=
  SameUnder.trans (View.Same.foldl_mark (fun _ _ => rfl) _ registered w.graph)
    (settles_syncSubtree (w.markSubtree c registered) c).stock

theorem sameEntries_markSubtree : SameEntries w.graph (w.markSubtree c registered).graph :=
  View.Same.foldl_mark (fun _ _ => rfl) _ registered w.graph

theorem consistent_markSubtree (hw : w.graph.Consistent) :
    (w.markSubtree c registered).graph.Consistent := by
  have hsame : ∀ {α : Type} (v : Form → α), (∀ f b, v { f with registered := b } = v f) →
      ∀ x, ((w.markSubtree c registered).graph.outline.context x).map v =
        (w.graph.outline.context x).map v := by
    intro α v hv x
    rw [outline_markSubtree]
    exact map_mark v hv _ _ _ x
  have hbranches : SameBranches w.graph.outline (w.markSubtree c registered).graph.outline :=
    hsame Form.branch fun _ _ => rfl
  refine ⟨hbranches.tree hw.tree, ?_, ?_⟩
  · refine hw.holds.congr (hsame Form.own fun _ _ => rfl) ?_
    rw [outline_markSubtree]
    rfl
  · exact (w.sameEntries_markSubtree c registered).entered hw.entered

theorem consistent_registerSubtree (hw : w.graph.Consistent) :
    (w.registerSubtree c registered).graph.Consistent :=
  (settles_syncSubtree (w.markSubtree c registered) c).consistent
    (w.consistent_markSubtree c registered hw)

end Workspace

/-! ## 4. A context at another place in the tree -/

/-- What a context keeps when it is moved. -/
def Form.loose (f : Form) : Form := { f with parent := none, children := 0 }

theorem Form.of_loose {f f' : Form} (h : f.loose = f'.loose) : f.scope = f'.scope ∧
    f.anonymous = f'.anonymous ∧ f.registered = f'.registered ∧ f.isTop = f'.isTop := by
  simp only [loose, mk.injEq] at h
  exact ⟨h.2.1, h.2.2.2.1, h.2.2.2.2.2.2⟩

namespace Outline

/-- At most one context has another parent, and children are only lost or
    gained with it. -/
structure Regrafts (o o' : Outline) (c : ContextId) : Prop where
  node : ∀ x, (o'.context x).map Form.loose = (o.context x).map Form.loose
  parent : ∀ x, x ≠ c → o'.parent? x = o.parent? x
  child : ∀ y z, z ≠ c → o.Child y z → o'.Child y z
  declaration : o'.declaration = o.declaration

namespace Regrafts

variable {o o' : Outline} {c : ContextId}

theorem refl (o : Outline) (c : ContextId) : Regrafts o o c :=
  ⟨fun _ => rfl, fun _ _ => rfl, fun _ _ _ => id, rfl⟩

theorem trans {o₁ o₂ o₃ : Outline} (h₁ : Regrafts o₁ o₂ c) (h₂ : Regrafts o₂ o₃ c) :
    Regrafts o₁ o₃ c where
  node x := (h₂.node x).trans (h₁.node x)
  parent x hx := (h₂.parent x hx).trans (h₁.parent x hx)
  child y z hz h := h₂.child y z hz (h₁.child y z hz h)
  declaration := h₂.declaration.trans h₁.declaration

variable (h : Regrafts o o' c)

include h

theorem map {α : Type} (v : Form → α) (hv : ∀ f, v f = v f.loose) (x : ContextId) :
    (o'.context x).map v = (o.context x).map v := by
  have hx := congrArg (Option.map v) (h.node x)
  rw [Option.map_map, Option.map_map] at hx
  have he : v ∘ Form.loose = v := (funext hv).symm
  rw [he] at hx
  exact hx

theorem context {x : ContextId} {f' : Form} (hx : o'.context x = some f') :
    ∃ f, o.context x = some f ∧ f.scope = f'.scope ∧ f.anonymous = f'.anonymous ∧
      f.registered = f'.registered ∧ f.isTop = f'.isTop := by
  obtain ⟨f, hf, he⟩ := exists_of_map_eq (h.node x) hx
  exact ⟨f, hf, Form.of_loose he⟩

theorem context' {x : ContextId} {f : Form} (hx : o.context x = some f) :
    ∃ f', o'.context x = some f' ∧ f'.scope = f.scope ∧ f'.anonymous = f.anonymous ∧
      f'.registered = f.registered ∧ f'.isTop = f.isTop := by
  have hnode := h.node x
  rw [hx] at hnode
  obtain ⟨f', hf', he⟩ := Option.map_eq_some_iff.mp hnode
  exact ⟨f', hf', Form.of_loose he⟩

theorem agree {x : ContextId} (hx : x ≠ c) : o.Agree o' x := by
  have hparent := h.parent x hx
  unfold Agree
  cases hf' : o'.context x with
  | none =>
    have hnode := h.node x
    rw [hf'] at hnode
    rw [Option.map_eq_none_iff.mp hnode.symm]
  | some f' =>
    obtain ⟨f, hf, hscope, _⟩ := h.context hf'
    rw [parent?_of_context hf, parent?_of_context hf'] at hparent
    rw [hf, Option.map_some, Option.map_some, hparent, hscope]

theorem holds (hh : o.Holds) : o'.Holds := hh.congr (h.map Form.own fun _ => rfl) h.declaration

/-- If the moved context is no top, or is below nothing, tops stay below nothing. -/
theorem rooted (hr : o.Rooted)
    (hc : ∀ f, o'.context c = some f → f.isTop = true → f.parent = none) : o'.Rooted := by
  intro x f' hx htop
  obtain ⟨f, hf, _, hanon, _, htop'⟩ := h.context hx
  have hroot := hr x f hf (htop'.trans htop)
  refine ⟨?_, hanon.symm.trans hroot.2⟩
  by_cases hxc : x = c
  · subst hxc
    exact hc f' hx htop
  · rw [← parent?_of_context hx, h.parent x hxc, parent?_of_context hf]
    exact hroot.1

/-- A context that moves below one that was there. -/
theorem descends (hparent : ∀ p, o'.parent? c = some p → (o.context p).isSome) :
    Descends o o' := by
  refine ⟨fun x hx => ?_, fun x p hp => ?_⟩
  · obtain ⟨f', hf'⟩ := Option.isSome_iff_exists.mp hx
    obtain ⟨f, hf, _⟩ := h.context hf'
    rw [hf]
    rfl
  · by_cases hx : x = c
    · rw [hx] at hp
      exact .inr (hparent p hp)
    · rw [← h.parent x hx]
      exact .inl hp

/-- What was below the context stays below it. -/
theorem below (ht : o.Tree) {x : ContextId} (hx : o.Below c x) : o'.Below c x := by
  induction hx with
  | refl => exact .refl
  | tail hy hz ih => exact .tail ih (h.child _ _ (ht.ne_of_below hy hz) hz)

/-- What keeps its parent is flagged as it was. -/
theorem inherit (hf : o.Flagged) {x p : ContextId} {f' fp' : Form} (hx : o'.context x = some f')
    (hne : x ≠ c) (hanon : f'.anonymous = false) (hparent : f'.parent = some p)
    (hp : o'.context p = some fp') : f'.registered = fp'.registered := by
  obtain ⟨f, hfx, _, hanon', hreg, _⟩ := h.context hx
  obtain ⟨fp, hfp, _, _, hregp, _⟩ := h.context hp
  have hparent' : f.parent = some p := by
    rw [← parent?_of_context hfx, ← h.parent x hne, parent?_of_context hx, hparent]
  rw [← hreg, ← hregp]
  exact hf.inherit hfx (hanon'.trans hanon) hparent' hfp

theorem anonymous (hf : o.Flagged) {x : ContextId} {f' : Form} (hx : o'.context x = some f')
    (hanon : f'.anonymous = true) : f'.registered = false := by
  obtain ⟨f, hfx, _, hanon', hreg, _⟩ := h.context hx
  rw [← hreg]
  exact hf.anonymous hfx (hanon'.trans hanon)

/-- **A moved subtree that is marked as its new parent is registered as its
    parents are.** -/
theorem flagged_mark (hf : o.Flagged) (ht : o'.Tree) {cs : List ContextId}
    (hcs : ∀ x, x ∈ cs ↔ o'.Below c x) {registered : Bool}
    (hanon : ∀ f, o'.context c = some f → f.anonymous = false)
    (hparent : ∀ f p fp, o'.context c = some f → f.parent = some p → o'.context p = some fp →
      fp.registered = registered) : (o'.mark cs registered).Flagged := by
  refine ⟨fun {x p f fp} hx hxanon hxparent hp => ?_, fun {x f} hx hxanon => ?_⟩
  · obtain ⟨f₀, hf₀, rfl⟩ := of_mark hx
    obtain ⟨fp₀, hfp₀, rfl⟩ := of_mark hp
    have hparent₀ : f₀.parent = some p := by
      split at hxparent <;> exact hxparent
    have hanon₀ : f₀.anonymous = false := by
      split at hxanon <;> exact hxanon
    obtain ⟨fq, hfq, hmem⟩ := ht.parent hf₀ hanon₀ hparent₀
    have hchild : o'.Child p x := ⟨fq, hfq, hmem⟩
    by_cases hxs : x ∈ cs
    · rw [if_pos hxs]
      by_cases hxc : x = c
      · -- the context itself: its parent is not below it
        have hps : p ∉ cs := by
          intro hps
          exact ht.ne_of_below ((hcs p).mp hps) hchild hxc
        rw [if_neg hps, hanon₀]
        subst hxc
        simp [hparent f₀ p fp₀ hf₀ hparent₀ hfp₀]
      · -- what is below it: its parent is marked too
        have hp' : o'.Below c p := ht.below_parent ((hcs x).mp hxs) hxc hchild
        rw [if_pos ((hcs p).mpr hp'), hanon₀, ht.anonymous_of_below hanon hp' hfp₀]
    · have hps : p ∉ cs := by
        intro hps
        exact hxs ((hcs x).mpr (.tail ((hcs p).mp hps) hchild))
      rw [if_neg hxs, if_neg hps]
      have hxc : x ≠ c := by
        rintro rfl
        exact hxs ((hcs x).mpr .refl)
      exact h.inherit hf hf₀ hxc hanon₀ hparent₀ hfp₀
  · obtain ⟨f₀, hf₀, rfl⟩ := of_mark hx
    by_cases hxs : x ∈ cs
    · rw [if_pos hxs] at hxanon ⊢
      have hanon₀ : f₀.anonymous = true := hxanon
      simp [hanon₀]
    · rw [if_neg hxs] at hxanon ⊢
      exact h.anonymous hf hf₀ hxanon

end Regrafts

end Outline

theorem Graph.Consistent.regraft {g g' : Graph} {c : ContextId} (hg : g.Consistent)
    (h : Outline.Regrafts g.outline g'.outline c) (he : SameEntries g g')
    (ht : g'.outline.Tree) : g'.Consistent := ⟨ht, h.holds hg.holds, he.entered hg.entered⟩

/-- **A context at another place, with its subtree registered as its parent is.**
    What has the context above it and is not in the subtree is not registered. -/
theorem Workspace.orderly_registerSubtree {g : Graph} {w : Workspace} {c : ContextId}
    {registered : Bool} (hg : g.Orderly) (h : Outline.Regrafts g.outline w.graph.outline c)
    (he : Graph.SameEntries g w.graph) (ht : w.graph.outline.Tree)
    (htop : ∀ f, w.graph.outline.context c = some f → f.isTop = true → f.parent = none)
    (hanon : ∀ f, w.graph.outline.context c = some f → f.anonymous = false)
    (hparent : ∀ f p fp, w.graph.outline.context c = some f → f.parent = some p →
      w.graph.outline.context p = some fp → fp.registered = registered) :
    (w.registerSubtree c registered).graph.Orderly := by
  let w₁ := w.markSubtree c registered
  have hmem : ∀ x, x ∈ w.graph.subtree c ↔ w.graph.outline.Below c x :=
    fun x => Graph.mem_subtree_iff ht.acyclic
  have houtline := w.outline_markSubtree c registered
  have hentries : Graph.SameEntries g w₁.graph := 
    he.trans (w.sameEntries_markSubtree c registered)
  have hsame : ∀ {α : Type} (v : Form → α), (∀ f b, v { f with registered := b } = v f) →
      ∀ x, (w₁.graph.outline.context x).map v = (w.graph.outline.context x).map v := by
    intro α v hv x
    rw [houtline]
    exact Outline.map_mark v hv _ _ _ x
  have hbranches : Outline.SameBranches w.graph.outline w₁.graph.outline :=
    hsame Form.branch fun _ _ => rfl
  have hw₁ : w₁.graph.Consistent :=
    w.consistent_markSubtree c registered (hg.toConsistent.regraft h he ht)
  have hout : CurrentOutside (w₁.graph.outline.Below c) w₁.graph := by
    refine CurrentOutside.of_sameEntries hg.current hentries ?_ (fun x hx => ?_) fun x f hx hf hreg => ?_
    · rw [houtline]
      exact h.declaration
    · have hnot : x ∉ w.graph.subtree c := fun hx' => hx (hbranches.below ((hmem x).mp hx'))
      rw [houtline, Outline.mark_of_not_mem hnot]
      exact h.map Form.standing (fun _ => rfl) x
    · obtain ⟨l, hl⟩ := hg.tree.line x
      refine Graph.scopePath_of_agree hl fun y hy => ?_
      have hne : y ≠ c := by
        rintro rfl
        exact hx (hbranches.below (h.below hg.tree (hg.flagged.below hg.tree hl hf hreg hy)))
      exact (hsame (fun f => (f.parent, f.scope)) (fun _ _ => rfl) y).trans (h.agree hne)
  refine (settles_syncSubtree w₁ c).orderly hw₁ (hbranches.rooted (h.rooted hg.rooted htop)) ?_
    (current_syncSubtree hw₁.tree hw₁.holds hout)
  rw [houtline]
  exact h.flagged_mark hg.flagged ht hmem hanon hparent

/-! ## 5. Cutting and grafting -/

namespace Outline

/-- The outline with other parents and children. -/
def place (o : Outline) (parent : ContextId → Option ContextId → Option ContextId)
    (children : ContextId → Multiset ContextId → Multiset ContextId) : Outline :=
  { o with context := fun x => (o.context x).map fun f =>
      { f with parent := parent x f.parent, children := children x f.children } }

/-- A child taken from below a parent. -/
def unlink (o : Outline) (p c : ContextId) : Outline :=
  o.place (fun x q => if x = c ∧ q = some p then none else q)
    fun x s => if x = p then s.filter (· ≠ c) else s

/-- A child put below a parent. -/
def link (o : Outline) (p c : ContextId) : Outline :=
  o.place (fun x q => if x = c then some p else q) fun x s => if x = p then c ::ₘ s else s

end Outline

namespace Graph

theorem outline_unlink (g : Graph) (p c : ContextId) :
    (g.unlinkChild p c).outline = g.outline.unlink p c := by
  rw [outline_unlinkChild]
  unfold Outline.unlink Outline.place Outline.modify
  congr 1
  funext x
  rcases eq_or_ne x c with rfl | hc <;> rcases eq_or_ne x p with rfl | hp <;>
    cases h : g.outline.context x <;> simp [*]

theorem outline_link (g : Graph) (p c : ContextId) :
    (g.linkChild p c).outline = g.outline.link p c := by
  rw [outline_linkChild]
  unfold Outline.link Outline.place Outline.modify
  congr 1
  funext x
  rcases eq_or_ne x c with rfl | hc <;> rcases eq_or_ne x p with rfl | hp <;>
    cases h : g.outline.context x <;> simp [*]

end Graph

namespace Outline

variable {o : Outline} {p c : ContextId}

section Place

variable {parent : ContextId → Option ContextId → Option ContextId}
  {children : ContextId → Multiset ContextId → Multiset ContextId}

theorem place_context {x : ContextId} {f : Form} (h : o.context x = some f) :
    (o.place parent children).context x =
      some { f with parent := parent x f.parent, children := children x f.children } :=
  Option.map_eq_some_iff.mpr ⟨f, h, rfl⟩

theorem of_place {x : ContextId} {f' : Form} (h : (o.place parent children).context x = some f') :
    ∃ f, o.context x = some f ∧
      { f with parent := parent x f.parent, children := children x f.children } = f' :=
  Option.map_eq_some_iff.mp h

theorem parent?_place (x : ContextId) :
    (o.place parent children).parent? x = (o.context x).bind fun f => parent x f.parent :=
  Option.bind_map

theorem loose_place (x : ContextId) :
    ((o.place parent children).context x).map Form.loose = (o.context x).map Form.loose :=
  Option.map_map _ _ _

end Place

theorem parent?_unlink (hc : o.parent? c = some p) (x : ContextId) :
    (o.unlink p c).parent? x = if x = c then none else o.parent? x := by
  unfold unlink
  rw [parent?_place]
  cases hx : o.context x with
  | none =>
    unfold parent?
    rw [hx, Option.bind_none, Option.bind_none, ite_self]
  | some f =>
    rw [parent?_of_context hx, Option.bind_some]
    by_cases hxc : x = c
    · subst hxc
      rw [parent?_of_context hx] at hc
      rw [if_pos ⟨rfl, hc⟩, if_pos rfl]
    · rw [if_neg fun h => hxc h.1, if_neg hxc]

theorem parent?_link {fc : Form} (hc : o.context c = some fc) (x : ContextId) :
    (o.link p c).parent? x = if x = c then some p else o.parent? x := by
  unfold link
  rw [parent?_place]
  by_cases hxc : x = c
  · rw [if_pos hxc, hxc, hc, Option.bind_some, if_pos rfl]
  · simp only [if_neg hxc]
    rfl

theorem child_of_unlink {y z : ContextId} (h : (o.unlink p c).Child y z) : o.Child y z := by
  obtain ⟨f', hf', hmem⟩ := h
  obtain ⟨f, hf, rfl⟩ := of_place hf'
  refine ⟨f, hf, ?_⟩
  dsimp only at hmem
  split at hmem
  · exact Multiset.mem_of_mem_filter hmem
  · exact hmem

theorem child_of_link {y z : ContextId} (h : (o.link p c).Child y z) :
    o.Child y z ∨ y = p ∧ z = c := by
  obtain ⟨f', hf', hmem⟩ := h
  obtain ⟨f, hf, rfl⟩ := of_place hf'
  dsimp only at hmem
  split at hmem
  · next hy =>
    rcases Multiset.mem_cons.mp hmem with hz | hz
    · exact .inr ⟨hy, hz⟩
    · exact .inl ⟨f, hf, hz⟩
  · exact .inl ⟨f, hf, hmem⟩

theorem Listed.unlink (hl : o.Listed) (p c : ContextId) : (o.unlink p c).Listed := by
  intro y z f' hy hz
  obtain ⟨f, hf, rfl⟩ := of_place hy
  have hold : z ∈ f.children ∧ (y = p → z ≠ c) := by
    by_cases hyp : y = p
    · rw [if_pos hyp] at hz
      exact ⟨(Multiset.mem_filter.mp hz).1, fun _ => (Multiset.mem_filter.mp hz).2⟩
    · rw [if_neg hyp] at hz
      exact ⟨hz, fun e => absurd e hyp⟩
  obtain ⟨fz, hfz, hanon, hparent⟩ := hl y z f hf hold.1
  refine ⟨_, place_context hfz, hanon, (if_neg fun h => ?_).trans hparent⟩
  rw [hparent] at h
  exact hold.2 (Option.some.inj h.2) h.1

theorem Matched.unlink (hm : o.Matched) (hc : o.parent? c = some p) : (o.unlink p c).Matched where
  listed := hm.listed.unlink p c
  parent := by
    intro z q f' hz hanon hparent
    have hne : z ≠ c := by
      rintro rfl
      have hcut := parent?_unlink hc z
      rw [parent?_of_context hz, hparent, if_pos rfl] at hcut
      cases hcut
    obtain ⟨f, hf, rfl⟩ := of_place hz
    have hparent' : f.parent = some q := (if_neg fun h => hne h.1).symm.trans hparent
    obtain ⟨fq, hfq, hmem⟩ := hm.parent hf hanon hparent'
    refine ⟨_, place_context hfq, ?_⟩
    by_cases hqp : q = p
    · rw [if_pos hqp]
      exact Multiset.mem_filter.mpr ⟨hmem, hne⟩
    · rw [if_neg hqp]
      exact hmem
  nodup := by
    intro y f' hy
    obtain ⟨f, hf, rfl⟩ := of_place hy
    dsimp only
    split
    · exact (hm.nodup hf).filter _
    · exact hm.nodup hf

theorem Tree.unlink (ht : o.Tree) (hc : o.parent? c = some p) : (o.unlink p c).Tree := by
  refine (ht.matched.unlink hc).tree fun x => ?_
  obtain ⟨l, hl⟩ := ht.line x
  refine hl.reroute (c := c) (fun y hy => ?_) ⟨[c], .root ?_⟩
  · rw [parent?_unlink hc, if_neg hy]
  · rw [parent?_unlink hc, if_pos rfl]

theorem Listed.link (hl : o.Listed) {fc : Form} (hc : o.context c = some fc)
    (hanon : fc.anonymous = false) (hroot : fc.parent = none) : (o.link p c).Listed := by
  intro y z f' hy hz
  obtain ⟨f, hf, rfl⟩ := of_place hy
  by_cases hold : z ∈ f.children
  · obtain ⟨fz, hfz, hzanon, hparent⟩ := hl y z f hf hold
    have hne : z ≠ c := by
      rintro rfl
      exact hl.not_child_of_root ((parent?_of_context hc).trans hroot) ⟨f, hf, hold⟩
    exact ⟨_, place_context hfz, hzanon, (if_neg hne).trans hparent⟩
  · have hnew : y = p ∧ z = c := by
      by_cases hyp : y = p
      · rw [if_pos hyp] at hz
        exact ⟨hyp, (Multiset.mem_cons.mp hz).resolve_right hold⟩
      · rw [if_neg hyp] at hz
        exact absurd hz hold
    obtain ⟨rfl, rfl⟩ := hnew
    exact ⟨_, place_context hc, hanon, if_pos rfl⟩

theorem Matched.link (hm : o.Matched) {fp fc : Form} (hp : o.context p = some fp)
    (hc : o.context c = some fc) (hanon : fc.anonymous = false) (hroot : fc.parent = none) :
    (o.link p c).Matched where
  listed := hm.listed.link hc hanon hroot
  parent := by
    intro z q f' hz hzanon hparent
    obtain ⟨f, hf, rfl⟩ := of_place hz
    by_cases hzc : z = c
    · have hq : q = p := (Option.some.inj ((if_pos hzc).symm.trans hparent)).symm
      subst hq
      refine ⟨_, place_context hp, ?_⟩
      rw [if_pos rfl, hzc]
      exact Multiset.mem_cons_self _ _
    · have hparent' : f.parent = some q := (if_neg hzc).symm.trans hparent
      obtain ⟨fq, hfq, hmem⟩ := hm.parent hf hzanon hparent'
      refine ⟨_, place_context hfq, ?_⟩
      dsimp only
      split
      · exact Multiset.mem_cons_of_mem hmem
      · exact hmem
  nodup := by
    intro y f' hy
    obtain ⟨f, hf, rfl⟩ := of_place hy
    dsimp only
    split
    · exact Multiset.nodup_cons.mpr
        ⟨fun hmem => hm.listed.not_child_of_root ((parent?_of_context hc).trans hroot)
          ⟨f, hf, hmem⟩, hm.nodup hf⟩
    · exact hm.nodup hf

/-- **A context without a parent can be put below one that it is not above.** -/
theorem Tree.link (ht : o.Tree) {fp fc : Form} (hp : o.context p = some fp)
    (hc : o.context c = some fc) (hanon : fc.anonymous = false) (hroot : fc.parent = none)
    {l : List ContextId} (hl : o.Line p l) (hcl : c ∉ l) : (o.link p c).Tree := by
  refine (ht.matched.link hp hc hanon hroot).tree fun x => ?_
  obtain ⟨lx, hlx⟩ := ht.line x
  refine hlx.reroute (c := c) (fun y hy => ?_) ⟨c :: l, .step ?_ (hl.congr fun y hy => ?_)⟩
  · rw [parent?_link hc, if_neg hy]
  · rw [parent?_link hc, if_pos rfl]
  · have hne : y ≠ c := fun e => hcl (e ▸ hy)
    rw [parent?_link hc, if_neg hne]

theorem regrafts_unlink (hc : o.parent? c = some p) : Regrafts o (o.unlink p c) c where
  node := loose_place
  parent x hx := by rw [parent?_unlink hc, if_neg hx]
  child := by
    rintro y z hz ⟨f, hf, hmem⟩
    refine ⟨_, place_context hf, ?_⟩
    dsimp only
    split
    · exact Multiset.mem_filter.mpr ⟨hmem, hz⟩
    · exact hmem
  declaration := rfl

theorem regrafts_link {fc : Form} (hc : o.context c = some fc) : Regrafts o (o.link p c) c where
  node := loose_place
  parent x hx := by rw [parent?_link hc, if_neg hx]
  child := by
    rintro y z hz ⟨f, hf, hmem⟩
    refine ⟨_, place_context hf, ?_⟩
    dsimp only
    split
    · exact Multiset.mem_cons_of_mem hmem
    · exact hmem
  declaration := rfl

end Outline

/-! ## 6. The edits -/

namespace Workspace

open ScopeGraph.Graph Outline

variable {w : Workspace} {p c : ContextId}

theorem outline_registerSubtree (w : Workspace) (c : ContextId) (registered : Bool) :
    SameBranches w.graph.outline (w.registerSubtree c registered).graph.outline := by
  have hs := settles_syncSubtree (w.markSubtree c registered) c
  intro x
  unfold registerSubtree
  rw [hs.shape.outline, outline_markSubtree]
  exact map_mark Form.branch (fun _ _ => rfl) _ _ _ x

/-- A context that is moved, or stays, below something that was there. -/
theorem upheld_registerSubtree {w₁ : Workspace} {registered : Bool} (hw : w.graph.Orderly)
    (h : Regrafts w.graph.outline w₁.graph.outline c) (he : SameEntries w.graph w₁.graph)
    (ht : w₁.graph.outline.Tree)
    (htop : ∀ f, w₁.graph.outline.context c = some f → f.isTop = true → f.parent = none)
    (hanon : ∀ f, w₁.graph.outline.context c = some f → f.anonymous = false)
    (hparent : ∀ p, w₁.graph.outline.parent? c = some p →
      (w.graph.outline.context p).map Form.registered = some registered) :
    Upheld w (w₁.registerSubtree c registered) := by
  refine ⟨orderly_registerSubtree hw h he ht htop hanon fun f p fp hf hp hfp => ?_, ?_⟩
  · have hreg := hparent p ((parent?_of_context hf).trans hp)
    rw [← h.map Form.registered (fun _ => rfl) p, hfp] at hreg
    exact Option.some.inj hreg
  · refine Descends.trans (h.descends fun p hp => ?_)
      (outline_registerSubtree w₁ c registered).descends
    obtain ⟨fp, hfp, _⟩ := Option.map_eq_some_iff.mp (hparent p hp)
    rw [hfp]
    rfl

theorem upholds_abandon {parent : Context} (hp : w.graph.context? p = some parent)
    (hc : c ∈ parent.children) : Upholds w (w.abandon p c) := by
  intro hw
  obtain ⟨f, hf, hanon, hparent⟩ := hw.tree.child (outline_context.mpr ⟨parent, hp, rfl⟩) hc
  have hparent : w.graph.outline.parent? c = some p := (parent?_of_context hf).trans hparent
  let w₁ := w.onGraph (·.unlinkChild p c)
  have houtline : w₁.graph.outline = w.graph.outline.unlink p c := outline_unlink w.graph p c
  have hcut : w₁.graph.outline.parent? c = none := by
    rw [houtline, parent?_unlink hparent, if_pos rfl]
  have hlive : w₁.graph.hasContext c = true := by
    have hsome : (w₁.graph.outline.context c).isSome := by
      rw [houtline]
      exact Option.isSome_iff_exists.mpr ⟨_, place_context hf⟩
    rw [outline_context_eq, Option.isSome_map] at hsome
    exact hsome
  have hgraft : Regrafts w.graph.outline w₁.graph.outline c := by
    rw [houtline]
    exact regrafts_unlink hparent
  have htree : w₁.graph.outline.Tree := by
    rw [houtline]
    exact hw.tree.unlink hparent
  have h : Upheld w (w₁.registerSubtree c false) := by
    refine upheld_registerSubtree hw hgraft (.unlinkChild w.graph p c) htree (fun f' hf' _ => ?_)
      (fun f' hf' => ?_) ?_
    · exact (parent?_of_context hf').symm.trans hcut
    · rw [houtline] at hf'
      obtain ⟨f₀, hf₀, rfl⟩ := of_place hf'
      cases hf.symm.trans hf₀
      exact hanon
    · intro q hq
      rw [hcut] at hq
      cases hq
  show Upheld w (if w₁.graph.hasContext c then w₁.registerSubtree c false else w₁)
  rw [if_pos hlive]
  exact h

/-- A context taken from below its parent, if it has one. -/
theorem uprooted (ht : w.graph.outline.Tree) {child : Context} (hc : w.graph.context? c = some child) :
    let g := (whenSome child.parent (fun q w => w.onGraph (·.unlinkChild q c)) w).graph
    Regrafts w.graph.outline g.outline c ∧ SameEntries w.graph g ∧ g.outline.Tree ∧
      g.outline.parent? c = none := by
  have hparent : w.graph.outline.parent? c = child.parent :=
    parent?_of_context (outline_context.mpr ⟨child, hc, rfl⟩)
  cases hq : child.parent with
  | none => exact ⟨.refl _ c, .refl _, ht, hparent.trans hq⟩
  | some q =>
    rw [hq] at hparent
    have houtline := outline_unlink w.graph q c
    show Regrafts w.graph.outline (w.graph.unlinkChild q c).outline c ∧
      SameEntries w.graph (w.graph.unlinkChild q c) ∧ (w.graph.unlinkChild q c).outline.Tree ∧
      (w.graph.unlinkChild q c).outline.parent? c = none
    rw [houtline, parent?_unlink hparent]
    exact ⟨regrafts_unlink hparent, .unlinkChild _ q c, ht.unlink hparent, if_pos rfl⟩

/-- A context put below one that it is not above, away from where it was. -/
theorem grafted (ht : w.graph.outline.Tree) {parent child : Context}
    (hp : w.graph.context? p = some parent) (hc : w.graph.context? c = some child)
    (hanon : child.anonymous = false) (hfree : w.graph.isAtOrAbove c p = false) :
    let g := ((whenSome child.parent (fun q w => w.onGraph (·.unlinkChild q c)) w).onGraph
      (·.linkChild p c)).graph
    Regrafts w.graph.outline g.outline c ∧ SameEntries w.graph g ∧ g.outline.Tree ∧
      g.outline.parent? c = some p := by
  obtain ⟨hgraft, hentries, ht₁, hcut⟩ := uprooted ht hc
  let w₁ := whenSome child.parent (fun q w => w.onGraph (·.unlinkChild q c)) w
  have houtline : (w₁.graph.linkChild p c).outline = w₁.graph.outline.link p c :=
    outline_link w₁.graph p c
  obtain ⟨fc, hfc, _, hanon₁, _⟩ := hgraft.context' (outline_context.mpr ⟨child, hc, rfl⟩)
  obtain ⟨fp, hfp, _⟩ := hgraft.context' (outline_context.mpr ⟨parent, hp, rfl⟩)
  obtain ⟨l, hl⟩ := ht.line p
  have hcl : c ∉ l := by
    rw [← lineage_eq hl]
    exact of_decide_eq_false hfree
  have hl₁ : w₁.graph.outline.Line p l :=
    hl.congr fun y hy => hgraft.parent y fun e => hcl (e ▸ hy)
  have hroot : fc.parent = none := (parent?_of_context hfc).symm.trans hcut
  show Regrafts w.graph.outline (w₁.graph.linkChild p c).outline c ∧
    SameEntries w.graph (w₁.graph.linkChild p c) ∧ (w₁.graph.linkChild p c).outline.Tree ∧
    (w₁.graph.linkChild p c).outline.parent? c = some p
  rw [houtline]
  refine ⟨hgraft.trans (regrafts_link hfc), hentries.trans (SameEntries.linkChild w₁.graph p c),
    ?_, ?_⟩
  · exact ht₁.link hfp hfc (hanon₁.trans hanon) hroot hl₁ hcl
  · rw [parent?_link hfc, if_pos rfl]

theorem upholds_graft {parent child : Context} (hp : w.graph.context? p = some parent)
    (hc : w.graph.context? c = some child) (hanon : child.anonymous = false)
    (htop : child.isTop = false) (hfree : w.graph.isAtOrAbove c p = false) :
    Upholds w (((whenSome child.parent (fun q w => w.onGraph (·.unlinkChild q c)) w).onGraph
      (·.linkChild p c)).registerSubtree c parent.registered) := by
  intro hw
  obtain ⟨hgraft₂, hentries, ht, hparent⟩ := grafted hw.tree hp hc hanon hfree
  refine upheld_registerSubtree hw hgraft₂ hentries ht (fun f hf hf' => ?_) ?_ ?_
  · obtain ⟨f₀, hf₀, _, _, _, htop₂⟩ := hgraft₂.context hf
    cases hf₀.symm.trans (outline_context.mpr ⟨child, hc, rfl⟩)
    exact absurd (htop.symm.trans (htop₂.trans hf')) Bool.false_ne_true
  · intro f hf
    obtain ⟨f₀, hf₀, _, hanon₂, _⟩ := hgraft₂.context hf
    cases hf₀.symm.trans (outline_context.mpr ⟨child, hc, rfl⟩)
    exact hanon₂.symm.trans hanon
  · intro q hq
    cases hparent.symm.trans hq
    rw [outline_context_eq, hp]
    rfl

theorem upholds_adopt {parent child : Context} (hp : w.graph.context? p = some parent)
    (hc : w.graph.context? c = some child) (hanon : child.anonymous = false)
    (htop : child.isTop = false) (hfree : w.graph.isAtOrAbove c p = false) :
    Upholds w (w.adopt p c parent child) := by
  unfold adopt
  dsimp only
  split
  · exact upholds_graft hp hc hanon htop hfree
  · have hwarn : Upholds w (w.warn .childOutsideParent) := (Beside.warn w _).sameRegistry.upholds
    exact hwarn.trans (upholds_graft hp hc hanon htop hfree)

end Workspace

namespace Edit

open Workspace ScopeGraph.Graph Outline

theorem upholds_removeChild (p c : ContextId) : Follows Upholds (removeChild p c) :=
  fun w => after_removeChild (.refl w) fun _ hp hc => upholds_abandon hp hc

theorem isTop_eq_false_of_top? {g : Graph} {c : ContextId} {data : Context}
    (hc : g.top? c = none) (hdata : g.context? c = some data) : data.isTop = false := by
  unfold top? at hc
  rw [hdata] at hc
  cases h : data.isTop with
  | false => rfl
  | true => simp [h] at hc

/-- A context that is no top may be put below another one. -/
theorem upholds_addChild {p c : ContextId} {w : Workspace} (hc : w.graph.top? c = none) :
    Upholds w ((addChild p c).after w) := by
  refine after_addChild (.refl w) (Beside.warn w _).sameRegistry.upholds ?_
  intro parent child hp hchild hanon _ hfree
  exact upholds_adopt hp hchild hanon (isTop_eq_false_of_top? hc hchild) hfree

theorem upholds_setKind (c : ContextId) (kind : ContextKind) : Follows Upholds (setKind c kind) :=
  fun w => after_setKind (.refl w) fun _ _ _ => Workspace.upholds_setKind kind

theorem upholds_setScopeName (c : ContextId) (name : QualName) :
    Follows Upholds (setScopeName c name) := by
  intro w
  refine after_setScopeName (.refl w) (fun data hc hsame => ?_) fun _ _ _ =>
    Workspace.upholds_setScopeName name
  refine (SameRegistry.onGraph (View.Same.modifyContext_of_some _ c fun data' hc' => ?_)).upholds
  -- the segments are the same, and nothing else of the name counts
  cases hc.symm.trans hc'
  have hform : { data with scopeName := name }.form = data.form := by
    unfold Context.form
    rw [hsame]
    rfl
  exact Prod.ext hform rfl

/-- The top of a file has no parent, so its subtree may be registered or not. -/
theorem upholds_registerTop (t : TopId) (registered : Bool) : Follows Upholds
    (needFile t >>= fun _ => update (·.registerSubtree t.context registered)) := by
  intro w
  unfold after
  rw [needFile_bind]
  cases hc : w.graph.context? t.context with
  | none => exact .refl w
  | some data =>
    cases hfile : data.file with
    | none =>
      simp only [hfile]
      exact .refl w
    | some r =>
      simp only [hfile]
      intro hw
      have hform : w.graph.outline.context t.context = some data.form :=
        outline_context.mpr ⟨data, hc, rfl⟩
      have htop := hw.rooted _ _ hform (by simp [Context.form, Context.isTop, hfile])
      refine upheld_registerSubtree hw (.refl _ _) (.refl _) hw.tree
        (fun f hf hf' => (hw.rooted _ f hf hf').1) (fun f hf => ?_) fun p hp => ?_
      · cases hform.symm.trans hf
        exact htop.2
      · rw [parent?_of_context hform, htop.1] at hp
        cases hp

end Edit

end ScopeGraph
