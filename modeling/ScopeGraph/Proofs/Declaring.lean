/-
  File:      ScopeGraph/Proofs/Declaring.lean
  Subject:   The symbol table stays in order while declarations come, move, get
             other names, and go.

  An edit of a declaration leaves the tree of contexts alone (`SameTree`): only
  the key of the one declaration can get out of date, and that one is brought up
  to date (`upholds_syncDeclaration`).
-/
import ScopeGraph.Proofs.Registry

namespace ScopeGraph

/-! ## 1. Outlines with the same tree -/

/-- The form without the declarations. -/
def Form.bare (f : Form) : Form := { f with own := 0 }

namespace Outline

/-- The contexts are the same but for their declarations. -/
def SameTree (o o' : Outline) : Prop :=
  ∀ x, (o'.context x).map Form.bare = (o.context x).map Form.bare

variable {o o' : Outline}

theorem SameTree.refl (o : Outline) : SameTree o o := fun _ => rfl

theorem SameTree.trans {o₁ o₂ o₃ : Outline} (h₁ : SameTree o₁ o₂) (h₂ : SameTree o₂ o₃) :
    SameTree o₁ o₃ := fun x => (h₂ x).trans (h₁ x)

theorem SameTree.symm (h : SameTree o o') : SameTree o' o := fun x => (h x).symm

theorem sameTree_modify (o : Outline) (c : ContextId) {f : Form → Form}
    (hf : ∀ a, (f a).bare = a.bare) : SameTree o (o.modify c f) := by
  intro x
  show Option.map _ (if x = c then (o.context x).map f else o.context x) = _
  split
  · rw [Option.map_map]
    congr 1
    funext a
    exact hf a
  · rfl

namespace SameTree

variable (h : SameTree o o')

include h

/-- A context in the one outline is in the other, with declarations of its
    own. -/
theorem context {x : ContextId} {f : Form} (hx : o'.context x = some f) :
    ∃ own, o.context x = some { f with own := own } := by
  obtain ⟨f₀, hf₀, he⟩ := exists_of_map_eq (h x) hx
  refine ⟨f₀.own, ?_⟩
  rw [hf₀]
  cases f₀
  cases f
  simp only [Form.bare, Form.mk.injEq] at he
  simp [he]

theorem agree (x : ContextId) : o.Agree o' x := by
  have hx := congrArg (Option.map fun f : Form => (f.parent, f.scope)) (h x)
  rw [Option.map_map, Option.map_map] at hx
  exact hx

theorem sameBranches : SameBranches o o' := by
  intro x
  have hx := congrArg (Option.map Form.branch) (h x)
  rw [Option.map_map, Option.map_map] at hx
  exact hx

theorem tree (ht : o.Tree) : o'.Tree := h.sameBranches.tree ht

theorem rooted (hr : o.Rooted) : o'.Rooted := h.sameBranches.rooted hr

theorem flagged (hf : o.Flagged) : o'.Flagged where
  inherit := by
    intro c p f fp hc hanon hparent hp
    obtain ⟨_, hc⟩ := h.context hc
    obtain ⟨_, hp⟩ := h.context hp
    have hsame := hf.inherit hc hanon hparent hp
    exact hsame
  anonymous := by
    intro c f hc hanon
    obtain ⟨_, hc⟩ := h.context hc
    have hunset := hf.anonymous hc hanon
    exact hunset

end SameTree

end Outline

namespace Graph

open Outline

variable {g g' : Graph} (h : SameTree g.outline g'.outline) (ht : g.outline.Tree)

include h ht

theorem scopePath_of_sameTree (c : ContextId) : g'.scopePath c = g.scopePath c := by
  obtain ⟨l, hl⟩ := ht.line c
  exact scopePath_of_agree hl fun y _ => h.agree y

theorem contextKey?_of_sameTree (c : ContextId) : g'.contextKey? c = g.contextKey? c := by
  refine contextKey?_congr ?_ fun _ _ _ => scopePath_of_sameTree h ht c
  have hc := congrArg (Option.map fun f : Form => (f.registered, f.anonymous, f.scope)) (h c)
  rw [Option.map_map, Option.map_map] at hc
  exact hc

theorem declarationKey?_of_sameTree {d : DeclId}
    (hd : g'.outline.declaration d = g.outline.declaration d) :
    g'.declarationKey? d = g.declarationKey? d := by
  refine declarationKey?_congr hd fun _ c _ _ => ⟨?_, fun _ => scopePath_of_sameTree h ht c⟩
  have hc := congrArg (Option.any fun f : Form => f.registered && f.kind.registersDeclarations) (h c)
  rw [registers_eq, registers_eq]
  rw [Option.any_map, Option.any_map] at hc
  exact hc

end Graph

/-! ## 2. Declarations come and go -/

namespace Outline

variable {o : Outline} {c : ContextId} {d : DeclId} {fd : DeclForm}

/-- A declaration taken out of the context that holds it. -/
def detach (o : Outline) (c : ContextId) (d : DeclId) : Outline :=
  (o.modify c fun f => { f with own := f.own.erase d }).modifyDecl d ({ · with context := none })

/-- A declaration put into a context. -/
def attach (o : Outline) (c : ContextId) (d : DeclId) : Outline :=
  (o.modify c fun f => { f with own := d ::ₘ f.own }).modifyDecl d ({ · with context := some c })

theorem sameTree_detach (o : Outline) (c : ContextId) (d : DeclId) : SameTree o (o.detach c d) :=
  sameTree_modify o c fun _ => rfl

theorem sameTree_attach (o : Outline) (c : ContextId) (d : DeclId) : SameTree o (o.attach c d) :=
  sameTree_modify o c fun _ => rfl

theorem Holds.detach (hh : o.Holds) (hd : o.declaration d = some fd) (hc : fd.context = some c) :
    (o.detach c d).Holds where
  own := by
    intro x f' d' hx hmem
    obtain ⟨f, hf, rfl⟩ := of_modify (o := o) hx
    have hmem' : d' ∈ f.own ∧ d' ≠ d := by
      by_cases hxc : x = c
      · rw [if_pos hxc] at hmem
        have hmem := (hh.nodup hf).mem_erase_iff.mp hmem
        exact ⟨hmem.2, hmem.1⟩
      · rw [if_neg hxc] at hmem
        refine ⟨hmem, fun e => hxc ?_⟩
        subst e
        obtain ⟨fd', hfd', hx'⟩ := hh.own hf hmem
        cases hd.symm.trans hfd'
        exact Option.some.inj (hx'.symm.trans hc)
    obtain ⟨fd', hfd', hx'⟩ := hh.own hf hmem'.1
    exact ⟨fd', (modifyDecl_of_ne _ _ hmem'.2).trans hfd', hx'⟩
  holder := by
    intro d' fd' x hd' hx
    obtain ⟨fd₀, hfd₀, rfl⟩ := of_modifyDecl hd'
    have hne : d' ≠ d := by
      intro e
      rw [if_pos e] at hx
      cases hx
    rw [if_neg hne] at hx
    obtain ⟨f, hf, hmem⟩ := hh.holder (show o.declaration d' = some fd₀ from hfd₀) hx
    by_cases hxc : x = c
    · subst hxc
      exact ⟨_, modify_self o hf, (Multiset.mem_erase_of_ne hne).mpr hmem⟩
    · exact ⟨f, (modify_of_ne o _ hxc).trans hf, hmem⟩
  nodup := by
    intro x f' hx
    obtain ⟨f, hf, rfl⟩ := of_modify (o := o) hx
    split
    · exact (hh.nodup hf).erase d
    · exact hh.nodup hf

theorem Holds.attach (hh : o.Holds) (hd : o.declaration d = some fd) (hnone : fd.context = none)
    {fc : Form} (hc : o.context c = some fc) : (o.attach c d).Holds where
  own := by
    intro x f' d' hx hmem
    obtain ⟨f, hf, rfl⟩ := of_modify (o := o) hx
    have hold : d' ∈ f.own → ∃ fd, (o.attach c d).declaration d' = some fd ∧
        fd.context = some x := by
      intro hmem
      obtain ⟨fd', hfd', hx'⟩ := hh.own hf hmem
      have hne : d' ≠ d := by
        intro e
        subst e
        cases hd.symm.trans hfd'
        rw [hnone] at hx'
        cases hx'
      exact ⟨fd', (modifyDecl_of_ne _ _ hne).trans hfd', hx'⟩
    by_cases hxc : x = c
    · rw [if_pos hxc] at hmem
      rcases Multiset.mem_cons.mp hmem with rfl | hmem
      · exact ⟨_, modifyDecl_self _ hd, by rw [hxc]⟩
      · exact hold hmem
    · rw [if_neg hxc] at hmem
      exact hold hmem
  holder := by
    intro d' fd' x hd' hx
    obtain ⟨fd₀, hfd₀, rfl⟩ := of_modifyDecl hd'
    by_cases hne : d' = d
    · rw [if_pos hne] at hx
      cases hx
      exact ⟨_, modify_self o hc, Multiset.mem_cons.mpr (.inl hne)⟩
    · rw [if_neg hne] at hx
      obtain ⟨f, hf, hmem⟩ := hh.holder (show o.declaration d' = some fd₀ from hfd₀) hx
      by_cases hxc : x = c
      · subst hxc
        exact ⟨_, modify_self o hf, Multiset.mem_cons_of_mem hmem⟩
      · exact ⟨f, (modify_of_ne o _ hxc).trans hf, hmem⟩
  nodup := by
    intro x f' hx
    obtain ⟨f, hf, rfl⟩ := of_modify (o := o) hx
    split
    · refine Multiset.nodup_cons.mpr ⟨fun hmem => ?_, hh.nodup hf⟩
      obtain ⟨fd', hfd', hx'⟩ := hh.own hf hmem
      cases hd.symm.trans hfd'
      rw [hnone] at hx'
      cases hx'
    · exact hh.nodup hf

/-- A declaration that nothing holds may go. -/
theorem Holds.eraseDecl (hh : o.Holds) (hd : ∀ fd, o.declaration d = some fd → fd.context = none) :
    (o.eraseDecl d).Holds where
  own := by
    intro x f d' hx hmem
    obtain ⟨fd', hfd', hx'⟩ := hh.own hx hmem
    have hne : d' ≠ d := by
      intro e
      subst e
      rw [hd fd' hfd'] at hx'
      cases hx'
    exact ⟨fd', (if_neg hne).trans hfd', hx'⟩
  holder := by
    intro d' fd' x hd' hx
    by_cases hne : d' = d
    · have hgone : (o.eraseDecl d).declaration d' = none := if_pos hne
      rw [hgone] at hd'
      cases hd'
    · exact hh.holder ((if_neg hne).symm.trans hd') hx
  nodup := hh.nodup

/-- The outline with one more declaration. -/
def insertDecl (o : Outline) (d : DeclId) (f : DeclForm) : Outline :=
  { o with declaration := fun x => if x = d then some f else o.declaration x }

/-- A new declaration that nothing holds. -/
theorem Holds.insertDecl (hh : o.Holds) (hd : o.declaration d = none) (hf : fd.context = none) :
    (o.insertDecl d fd).Holds where
  own := by
    intro x f d' hx hmem
    obtain ⟨fd', hfd', hx'⟩ := hh.own hx hmem
    have hne : d' ≠ d := by
      intro e
      rw [e, hd] at hfd'
      cases hfd'
    exact ⟨fd', (if_neg hne).trans hfd', hx'⟩
  holder := by
    intro d' fd' x hd' hx
    by_cases hne : d' = d
    · have hnew : (o.insertDecl d fd).declaration d' = some fd := if_pos hne
      cases hnew.symm.trans hd'
      rw [hf] at hx
      cases hx
    · exact hh.holder ((if_neg hne).symm.trans hd') hx
  nodup := hh.nodup

/-- What holds a declaration does not depend on its name. -/
theorem Holds.modifyDecl (hh : o.Holds) (d : DeclId) {f : DeclForm → DeclForm}
    (hf : ∀ a, (f a).context = a.context) : (o.modifyDecl d f).Holds where
  own := by
    intro x fx d' hx hmem
    obtain ⟨fd', hfd', hx'⟩ := hh.own hx hmem
    by_cases hne : d' = d
    · subst hne
      exact ⟨_, modifyDecl_self o hfd', (hf fd').trans hx'⟩
    · exact ⟨fd', (modifyDecl_of_ne o f hne).trans hfd', hx'⟩
  holder := by
    intro d' fd' x hd' hx
    obtain ⟨fd₀, hfd₀, rfl⟩ := of_modifyDecl hd'
    refine hh.holder hfd₀ ?_
    by_cases hne : d' = d
    · rw [if_pos hne, hf] at hx
      exact hx
    · rw [if_neg hne] at hx
      exact hx
  nodup := hh.nodup

end Outline

/-! ## 3. One declaration changes -/

/-- A step that concerns one declaration: the tree stays, the others stay, and
    the symbol table and all entries stay. -/
structure Graph.Touches (g g' : Graph) (d : DeclId) : Prop where
  tree : Outline.SameTree g.outline g'.outline
  others : ∀ x, x ≠ d → g'.outline.declaration x = g.outline.declaration x
  holds : g'.outline.Holds
  entries : SameEntries g g'

theorem Graph.Touches.consistent {g g' : Graph} {d : DeclId} (h : g.Touches g' d)
    (hg : g.Consistent) : g'.Consistent :=
  ⟨h.tree.tree hg.tree, h.holds, h.entries.entered hg.entered⟩

/-- **After an edit of one declaration it is enough to bring this one up to
    date.** -/
theorem Graph.Touches.orderly {g : Graph} {w : Workspace} {d : DeclId}
    (h : g.Touches w.graph d) (hg : g.Orderly) : (w.syncDeclaration d).graph.Orderly := by
  have hs := w.settles_syncDeclaration d
  have hsync := w.syncsDeclaration d
  have houtline := hs.shape.outline
  refine ⟨hs.consistent (h.consistent hg.toConsistent), ?_, ?_, fun c => ?_, fun x => ?_⟩
  · rw [houtline]
    exact h.tree.rooted hg.rooted
  · rw [houtline]
    exact h.tree.flagged hg.flagged
  · refine hs.context c ?_
    unfold Graph.CurrentContext
    rw [h.entries.contexts, Graph.contextKey?_of_sameTree h.tree hg.tree]
    exact hg.current.contexts c
  · refine hsync.currentDeclaration ?_
    by_cases hx : x = d
    · exact .inl hx
    · refine .inr ?_
      unfold Graph.CurrentDeclaration
      rw [h.entries.declarations, Graph.declarationKey?_of_sameTree h.tree hg.tree (h.others x hx)]
      exact hg.current.declarations x

/-! ## 4. The edits -/

namespace Outline

variable {o : Outline} {d : DeclId} {fd : DeclForm}

/-- A declaration taken out of what holds it, if anything does. -/
def withdraw (o : Outline) (d : DeclId) : Option ContextId → Outline
  | some c => o.detach c d
  | none => o

theorem sameTree_withdraw (o : Outline) (d : DeclId) (holder : Option ContextId) :
    SameTree o (o.withdraw d holder) := by
  cases holder with
  | none => exact .refl o
  | some c => exact sameTree_detach o c d

theorem withdraw_of_ne (o : Outline) (holder : Option ContextId) {x : DeclId} (hx : x ≠ d) :
    (o.withdraw d holder).declaration x = o.declaration x := by
  cases holder with
  | none => rfl
  | some c => exact modifyDecl_of_ne _ _ hx

theorem withdraw_self (hd : o.declaration d = some fd) :
    (o.withdraw d fd.context).declaration d = some { fd with context := none } := by
  obtain ⟨name, holder⟩ := fd
  cases holder with
  | none => exact hd
  | some c => exact modifyDecl_self _ hd

theorem Holds.withdraw (hh : o.Holds) (hd : o.declaration d = some fd) :
    (o.withdraw d fd.context).Holds := by
  cases hc : fd.context with
  | none => exact hh
  | some c => exact hh.detach hd hc

end Outline

namespace Graph

variable {g : Graph} {d : DeclId} {data : Declaration}

/-- A declaration taken out of the list and the indices of what holds it, if
    anything does. -/
def withdraw (g : Graph) (d : DeclId) : Option ContextId → Graph
  | some c => g.detach c d
  | none => g

theorem declarations_withdraw (d : DeclId) (holder : Option ContextId) :
    (g.withdraw d holder).declarations = g.declarations := by
  cases holder with
  | none => rfl
  | some c => exact declarations_detach c d

theorem map_context?_withdraw {α : Type} {v : Context → α}
    (hv : ∀ (data : Context) (parent : Option ContextId) (children : List ContextId) (l : Locals),
      v { data with parent := parent, children := children, locals := l } = v data) (d : DeclId)
    (holder : Option ContextId) (x : ContextId) :
    ((g.withdraw d holder).context? x).map v = (g.context? x).map v := by
  cases holder with
  | none => rfl
  | some c => exact map_context?_detach hv c d x

/-- The contexts are as if the declaration were withdrawn; the declaration itself
    does not know yet. -/
theorem outline_withdraw (hd : g.declaration? d = some data) (holder : Option ContextId) :
    (g.withdraw d holder).outline =
      { g.outline with context := (g.outline.withdraw d holder).context } := by
  cases holder with
  | none => rfl
  | some c => exact outline_detach hd

/-- A declaration taken out of what holds it and put into a context. -/
def move (g : Graph) (c : ContextId) (d : DeclId) (holder : Option ContextId) : Graph :=
  ((g.withdraw d holder).attach c d).modifyDeclaration d ({ · with context := some c })

/-- A declaration taken out of its context. -/
def drop (g : Graph) (c : ContextId) (d : DeclId) : Graph :=
  (g.detach c d).modifyDeclaration d ({ · with context := none })

/-- A declaration's old name taken out of all indices, and its new one put in. -/
def rename (g : Graph) (d : DeclId) (data : Declaration) (name : Ident) : Graph :=
  let g := data.context.elim g fun c =>
    (g.recallNames c [(data.name, d)]).spreadNames c [(name, d)]
  g.modifyDeclaration d ({ · with name := name })

namespace View.Same

variable {β γ δ : Type} {V : View β γ δ}

section Lists

variable (hlocals : ∀ (data : Context) (l : Locals),
    V.context { data with locals := l } = V.context data)

include hlocals

theorem withdraw (g : Graph) (d : DeclId) (holder : Option ContextId) :
    V.Same g (g.withdraw d holder) := by
  cases holder with
  | none => exact .refl g
  | some c => exact detach hlocals g c d

variable (hcontext : ∀ data c, V.declaration { data with context := c } = V.declaration data)

include hcontext

theorem move (g : Graph) (c : ContextId) (d : DeclId) (holder : Option ContextId) :
    V.Same g (g.move c d holder) :=
  ((withdraw hlocals g d holder).trans (attach hlocals _ c d)).trans
    (modifyDeclaration _ d fun data => hcontext data (some c))

theorem drop (g : Graph) (c : ContextId) (d : DeclId) : V.Same g (g.drop c d) :=
  (detach hlocals g c d).trans (modifyDeclaration _ d fun data => hcontext data none)

end Lists

end View.Same

section Touches

open Outline

variable {c : ContextId} (hh : g.outline.Holds)

include hh

theorem touches_move {target : Context} (hc : g.context? c = some target)
    (hd : g.declaration? d = some data) : g.Touches (g.move c d data.context) d := by
  have hd' : g.outline.declaration d = some data.form := outline_declaration.mpr ⟨_, hd, rfl⟩
  have hc' : g.outline.context c = some target.form := outline_context.mpr ⟨_, hc, rfl⟩
  have hwithdrawn : (g.outline.withdraw d data.context).declaration d =
      some { data.form with context := none } := withdraw_self hd'
  have htree := sameTree_withdraw g.outline d data.context
  obtain ⟨own, hstays⟩ := htree.symm.context hc'
  have houtline : (g.move c d data.context).outline =
      (g.outline.withdraw d data.context).attach c d := by
    have hd₁ : (g.withdraw d data.context).declaration? d = some data := by
      unfold declaration?
      rw [declarations_withdraw]
      exact hd
    unfold move
    rw [outline_modifyDeclaration (v := ({ · with context := some c })) fun _ => rfl,
      outline_attach hd₁, outline_withdraw hd]
    unfold Outline.attach modifyDecl
    congr 1
    funext x
    by_cases hx : x = d
    · rw [if_pos hx, if_pos hx, hx]
      show (g.outline.declaration d).map _ =
        ((g.outline.withdraw d data.context).declaration d).map _
      rw [hwithdrawn, hd']
      rfl
    · rw [if_neg hx, if_neg hx]
      exact (withdraw_of_ne g.outline data.context hx).symm
  exact
    { tree := houtline ▸ htree.trans (sameTree_attach _ c d)
      others := fun x hx => (congrArg (Outline.declaration · x) houtline).trans
        ((modifyDecl_of_ne _ _ hx).trans (withdraw_of_ne _ _ hx))
      holds := houtline ▸ (hh.withdraw hd').attach hwithdrawn rfl hstays
      entries := View.Same.move (fun _ _ => rfl) (fun _ _ => rfl) g c d _ }

theorem touches_drop (hd : g.declaration? d = some data) (hc : data.context = some c) :
    g.Touches (g.drop c d) d := by
  have hd' : g.outline.declaration d = some data.form := outline_declaration.mpr ⟨_, hd, rfl⟩
  have houtline : (g.drop c d).outline = g.outline.detach c d := by
    unfold drop
    rw [outline_modifyDeclaration (v := ({ · with context := none })) fun _ => rfl,
      outline_detach hd]
    rfl
  refine ⟨?_, fun x hx => ?_, ?_, ?_⟩
  · exact houtline ▸ sameTree_detach _ c d
  · exact (congrArg (Outline.declaration · x) houtline).trans (modifyDecl_of_ne _ _ hx)
  · exact houtline ▸ hh.detach hd' hc
  · exact View.Same.drop (fun _ _ => rfl) (fun _ _ => rfl) g c d

theorem touches_rename (d : DeclId) (data : Declaration) (name : Ident) :
    g.Touches (g.rename d data name) d := by
  have hindices : SameRegistry g (data.context.elim g fun c =>
      (g.recallNames c [(data.name, d)]).spreadNames c [(name, d)]) := by
    cases data.context with
    | none => exact .refl _
    | some c => exact (SameRegistry.recallNames _ c _).trans (SameRegistry.spreadNames _ c _)
  have houtline : (g.rename d data name).outline =
      g.outline.modifyDecl d ({ · with name := name }) := by
    unfold rename
    rw [outline_modifyDeclaration (v := ({ · with name := name })) fun _ => rfl,
      hindices.shape.outline]
  refine ⟨?_, fun x hx => ?_, ?_,
    hindices.entries.trans (View.Same.modifyDeclaration _ d fun _ => rfl)⟩
  · exact houtline ▸ .refl _
  · exact (congrArg (Outline.declaration · x) houtline).trans (modifyDecl_of_ne _ _ hx)
  · exact houtline ▸ hh.modifyDecl d fun _ => rfl

end Touches

end Graph

namespace Workspace

open ScopeGraph.Graph Outline

variable {w : Workspace} {c : ContextId} {d : DeclId} {data : Declaration}

theorem moveDeclaration_eq (w : Workspace) (c : ContextId) (d : DeclId)
    (holder : Option ContextId) :
    w.moveDeclaration c d holder = (w.onGraph (·.move c d holder)).syncDeclaration d := by
  cases holder <;> rfl

theorem renameDeclaration_eq (w : Workspace) (d : DeclId) (data : Declaration) (name : Ident) :
    w.renameDeclaration d data name = (w.onGraph (·.rename d data name)).syncDeclaration d := by
  unfold renameDeclaration onGraph Graph.rename
  cases data.context <;> rfl

theorem upholds_syncDeclaration {w' : Workspace}
    (h : w.graph.outline.Holds → w.graph.Touches w'.graph d) :
    Upholds w (w'.syncDeclaration d) := by
  intro hw
  have ht := h hw.holds
  refine ⟨ht.orderly hw, ?_⟩
  rw [(w'.settles_syncDeclaration d).shape.outline]
  exact ht.tree.sameBranches.descends

theorem upholds_moveDeclaration {target : Context} (hc : w.graph.context? c = some target)
    (hd : w.graph.declaration? d = some data) :
    Upholds w (w.moveDeclaration c d data.context) := by
  rw [moveDeclaration_eq]
  exact upholds_syncDeclaration fun hh => touches_move hh hc hd

theorem upholds_dropDeclaration (hd : w.graph.declaration? d = some data)
    (hc : data.context = some c) : Upholds w (w.dropDeclaration c d) :=
  upholds_syncDeclaration fun hh => touches_drop hh hd hc

theorem upholds_renameDeclaration (name : Ident) :
    Upholds w (w.renameDeclaration d data name) := by
  rw [renameDeclaration_eq]
  exact upholds_syncDeclaration fun hh => touches_rename hh d data name

end Workspace

theorem Graph.outline_eraseDeclaration (g : Graph) (d : DeclId) :
    ({ g with declarations := g.declarations.erase d } : Graph).outline = g.outline.eraseDecl d := by
  unfold outline Outline.eraseDecl
  congr 1
  funext x
  show (Store.get? _ x).map Declaration.form = _
  rw [Store.get?_erase]
  split <;> rfl

/-- A declaration that is held nowhere may go. -/
theorem Graph.heldDeclaration_eraseDeclaration {g : Graph} {d : DeclId}
    (h : g.heldDeclaration d = none) :
    ({ g with declarations := g.declarations.erase d } : Graph).heldDeclaration =
      g.heldDeclaration := by
  funext x
  show ((g.declarations.erase d).get? x).bind (·.key) = _
  rw [Store.get?_erase]
  split
  · next hx => rw [hx, h]; rfl
  · rfl

/-- The same declaration goes in both graphs. -/
theorem Graph.SameStock.eraseDeclaration {g g' : Graph} (h : SameStock g g') (d : DeclId) :
    SameStock { g with declarations := g.declarations.erase d }
      { g' with declarations := g'.declarations.erase d } := by
  refine .of_parts (View.Same.context_part h id) fun x => ?_
  unfold declaration?
  rw [Store.get?_erase, Store.get?_erase]
  split
  · rfl
  · exact View.Same.declaration_part h id x

/-- A declaration is gone, and nothing else changes. -/
structure Graph.Discards (g g' : Graph) (d : DeclId) (holder : Option ContextId) : Prop where
  outline : g'.outline = (g.outline.withdraw d holder).eraseDecl d
  stock : SameStock { g.withdraw d holder with
    declarations := (g.withdraw d holder).declarations.erase d } g'
  contexts : g'.heldContext = g.heldContext
  declarations : ∀ x, g'.heldDeclaration x = if x = d then none else g.heldDeclaration x
  entered : g.Entered → g'.Entered

namespace Graph.Discards

open Outline

variable {g g' : Graph} {d : DeclId} {holder : Option ContextId} (h : g.Discards g' d holder)

include h

theorem sameTree : SameTree g.outline g'.outline :=
  h.outline ▸ sameTree_withdraw g.outline d holder

theorem declaration_of_ne {x : DeclId} (hx : x ≠ d) :
    g'.outline.declaration x = g.outline.declaration x := by
  rw [h.outline]
  exact (if_neg hx).trans (withdraw_of_ne _ _ hx)

theorem gone : g'.declaration? d = none := by
  have hnone : g'.outline.declaration d = none := by
    rw [h.outline]
    exact if_pos rfl
  exact Option.map_eq_none_iff.mp hnone

theorem consistent (hg : g.Consistent) {f : DeclForm} (hd : g.outline.declaration d = some f)
    (hf : f.context = holder) : g'.Consistent := by
  refine ⟨h.sameTree.tree hg.tree, ?_, h.entered hg.entered⟩
  subst hf
  rw [h.outline]
  refine (hg.holds.withdraw hd).eraseDecl fun f' hf' => ?_
  rw [withdraw_self hd] at hf'
  cases hf'
  rfl

theorem orderly (hg : g.Orderly) {f : DeclForm} (hd : g.outline.declaration d = some f)
    (hf : f.context = holder) : g'.Orderly := by
  refine ⟨h.consistent hg.toConsistent hd hf, h.sameTree.rooted hg.rooted,
    h.sameTree.flagged hg.flagged, fun c => ?_, fun x => ?_⟩
  · unfold CurrentContext
    rw [h.contexts, contextKey?_of_sameTree h.sameTree hg.tree]
    exact hg.current.contexts c
  · by_cases hx : x = d
    · rw [hx]
      exact currentDeclaration_of_gone h.gone
    · unfold CurrentDeclaration
      rw [h.declarations, if_neg hx,
        declarationKey?_of_sameTree h.sameTree hg.tree (h.declaration_of_ne hx)]
      exact hg.current.declarations x

end Graph.Discards

/-- A context after a declaration has gone that may have owned it and may have been
    listed in its file. -/
def Context.bereft (data : Context) (d : DeclId) (owned listed : Bool) : Context :=
  { data with
    owner := if owned = true ∧ data.owner = some d then none else data.owner
    file := if listed then data.file.map (·.forget d) else data.file }

namespace Workspace

open ScopeGraph.Graph Outline

variable {w : Workspace} {c : ContextId} {d : DeclId} {data : Declaration}

theorem context?_discard (w : Workspace) (d : DeclId) (data : Declaration) (x : ContextId) :
    (w.discard d data).graph.context? x =
      ((w.graph.withdraw d data.context).context? x).map (·.bereft d (data.internal = some x)
        (data.context.bind w.graph.topOf? = some ⟨x⟩)) := by
  unfold discard
  generalize data.context.bind w.graph.topOf? = top
  have hgraph : (whenSome data.context (fun c w => w.onGraph (·.detach c d)) w).graph =
      w.graph.withdraw d data.context := by
    cases data.context <;> rfl
  rw [← hgraph]
  generalize whenSome data.context _ w = w₁
  -- The entry of the table says nothing about contexts.
  have htable : ∀ w₂ : Workspace, (whenSome data.key (fun key w =>
      w.changeTable (.removeDeclaration key d)) w₂).graph.context? x = w₂.graph.context? x := by
    intro w₂
    cases data.key <;> rfl
  have howner : ∀ w₃ : Workspace, (whenSome data.internal (fun c w =>
      w.onGraph (·.clearOwner c d)) w₃).graph.context? x =
        (w₃.graph.context? x).map (·.bereft d (data.internal = some x) false) := by
    intro w₃
    cases data.internal with
    | none => simp [whenSome, Context.bereft]
    | some c =>
      refine (context?_modifyContext w₃.graph c x _).trans ?_
      by_cases hx : x = c
      · subst hx
        rw [if_pos rfl]
        congr 1
        funext data
        by_cases ho : data.owner = some d <;> simp [Context.bereft, ho]
      · have hne : c ≠ x := fun e => hx e.symm
        simp [hx, hne, Context.bereft]
  have hfile : ∀ w₄ : Workspace, (whenSome top (fun t w => w.onGraph (·.modifyContext t.context
      fun data => { data with file := data.file.map (·.forget d) })) w₄).graph.context? x =
        (w₄.graph.context? x).map (·.bereft d false (top = some ⟨x⟩)) := by
    intro w₄
    cases top with
    | none => simp [whenSome, Context.bereft]
    | some t =>
      refine (context?_modifyContext w₄.graph t.context x _).trans ?_
      by_cases hx : x = t.context
      · simp [hx, Context.bereft]
      · have hne : t ≠ ⟨x⟩ := fun e => hx (e ▸ rfl)
        simp [hx, hne, Context.bereft]
  refine (hfile _).trans ?_
  rw [howner, htable, Option.map_map]
  rfl

theorem declarations_discard (w : Workspace) (d : DeclId) (data : Declaration) :
    (w.discard d data).graph.declarations =
      (w.graph.declarations.modify d ({ · with key := none })).erase d := by
  unfold discard
  generalize data.context.bind w.graph.topOf? = top
  have hholder : (whenSome data.context (fun c w => w.onGraph (·.detach c d)) w).graph.declarations =
      w.graph.declarations := by
    cases data.context with
    | none => rfl
    | some c => exact declarations_detach c d
  generalize whenSome data.context _ w = w₁ at hholder ⊢
  have hrest : ∀ w₂ : Workspace, (whenSome top (fun t w => w.onGraph (·.modifyContext t.context
      fun data => { data with file := data.file.map (·.forget d) }))
        (whenSome data.internal (fun c w => w.onGraph (·.clearOwner c d)) (whenSome data.key
          (fun key w => w.changeTable (.removeDeclaration key d)) w₂))).graph.declarations =
            w₂.graph.declarations := by
    intro w₂
    cases top <;> cases data.internal <;> cases data.key <;> rfl
  rw [← hholder]
  exact congrArg (Store.erase · d) (hrest _)

theorem declaration?_discard (w : Workspace) (d : DeclId) (data : Declaration) (x : DeclId) :
    (w.discard d data).graph.declaration? x = if x = d then none else w.graph.declaration? x := by
  unfold declaration?
  rw [declarations_discard, Store.get?_erase]
  split
  · rfl
  · next hx => exact Store.get?_modify_of_ne _ _ hx

theorem discards (hd : w.graph.declaration? d = some data) :
    w.graph.Discards (w.discard d data).graph d data.context := by
  let w₁ := whenSome data.context (fun c w => w.onGraph (·.detach c d)) w
  let w₂ := w₁.onGraph (·.modifyDeclaration d ({ · with key := none }))
  let w₃ := whenSome data.key (fun key w => w.changeTable (.removeDeclaration key d)) w₂
  let w₄ := whenSome data.internal (fun c w => w.onGraph (·.clearOwner c d)) w₃
  let w₅ := whenSome (data.context.bind w.graph.topOf?) (fun t w => w.onGraph
    (·.modifyContext t.context fun data => { data with file := data.file.map (·.forget d) })) w₄
  have hg₁ : w₁.graph = w.graph.withdraw d data.context := by
    show (whenSome data.context _ w).graph = _
    cases data.context <;> rfl
  have h₁ : SameEntries w.graph w₁.graph :=
    hg₁ ▸ View.Same.withdraw (fun _ _ => rfl) w.graph d data.context
  have h₃ : RekeysDeclaration w₁.graph w₃.graph d none := by
    have hd₁ : w₁.graph.declaration? d = some data := by
      rw [hg₁]
      unfold declaration?
      rw [declarations_withdraw]
      exact hd
    have hrekeys := rekeysDeclaration hd₁ none
    revert hrekeys
    show _ → RekeysDeclaration w₁.graph (whenSome data.key _ w₂).graph d none
    cases data.key <;> exact id
  have h₄ : Graph.Beside w₃.graph w₄.graph := by
    show Graph.Beside w₃.graph (whenSome data.internal _ w₃).graph
    cases data.internal with
    | none => exact .refl _
    | some c => exact View.Same.clearOwner (fun _ _ => rfl) _ c d
  have hbeside : Graph.Beside w₃.graph w₅.graph := by
    refine h₄.trans ?_
    show Graph.Beside w₄.graph (whenSome (data.context.bind w.graph.topOf?) _ w₄).graph
    cases data.context.bind w.graph.topOf? with
    | none => exact .refl _
    | some t => exact View.Same.modifyContext _ _ fun data => data.core_file _
  have h₅ : Graph.SameRegistry w₃.graph w₅.graph := hbeside.sameRegistry
  have hheld : ∀ x, w₅.graph.heldDeclaration x =
      if x = d then none else w.graph.heldDeclaration x := by
    intro x
    rw [h₅.entries.declarations, h₃.declarations, h₁.declarations]
  have h₆ := heldDeclaration_eraseDeclaration ((hheld d).trans (if_pos rfl))
  refine ⟨?_, ?_, ?_, fun x => ?_, fun hw => ?_⟩
  · show (Graph.mk _ _ (w₅.graph.declarations.erase d) _).outline = _
    rw [outline_eraseDeclaration, h₅.shape.outline, h₃.shape.outline, hg₁, outline_withdraw hd]
    unfold eraseDecl
    congr 1
    funext x
    by_cases hx : x = d
    · rw [if_pos hx, if_pos hx]
    · rw [if_neg hx, if_neg hx]
      exact (withdraw_of_ne w.graph.outline data.context hx).symm
  · rw [← hg₁]
    exact SameStock.eraseDeclaration (h₃.stock.trans hbeside.sameStock) d
  · exact h₅.entries.contexts.trans (h₃.contexts.trans h₁.contexts)
  · exact (congrFun h₆ x).trans (hheld x)
  · have hw₅ : w₅.graph.Entered := h₅.entries.entered (h₃.entered (h₁.entered hw))
    exact ⟨hw₅.contexts, h₆ ▸ hw₅.declarations, Store.tidy_erase hw₅.tidy d⟩

theorem upholds_discard (hd : w.graph.declaration? d = some data) :
    Upholds w (w.discard d data) := by
  intro hw
  have h := discards hd
  exact ⟨h.orderly hw (outline_declaration.mpr ⟨data, hd, rfl⟩) rfl, h.sameTree.sameBranches.descends⟩

end Workspace

namespace Edit

open Workspace ScopeGraph.Graph Outline

theorem upholds_addDeclaration (c : ContextId) (d : DeclId) :
    Follows Upholds (addDeclaration c d) :=
  fun w => after_addDeclaration (.refl w) fun _ _ hc hd _ => upholds_moveDeclaration hc hd

theorem upholds_removeDeclaration (c : ContextId) (d : DeclId) :
    Follows Upholds (removeDeclaration c d) :=
  fun w => after_removeDeclaration (.refl w) fun _ _ _ hd hc => upholds_dropDeclaration hd hc

theorem upholds_setDeclarationContext (d : DeclId) (c : Option ContextId) :
    Follows Upholds (setDeclarationContext d c) := by
  cases c with
  | some c => exact (upholds_addDeclaration c d).bind fun _ => follows_pure ()
  | none =>
    refine (follows_needDeclaration d).bind fun data => ?_
    cases data.context with
    | none => exact follows_pure ()
    | some c => exact (upholds_removeDeclaration c d).bind fun _ => follows_pure ()

theorem upholds_rename (d : DeclId) (name : Ident) : Follows Upholds (rename d name) :=
  fun w => after_rename (.refl w) fun _ _ _ => upholds_renameDeclaration name

theorem upholds_deleteDeclaration (d : DeclId) : Follows Upholds (deleteDeclaration d) :=
  fun w => after_deleteDeclaration (.refl w) fun _ hd => upholds_discard hd

theorem upholds_clearDeclarations (c : ContextId) : Follows Upholds (clearDeclarations c) := by
  refine follows_graph.bind fun g => Follows.bind (follows_forEach (fun d => ?_) _) fun _ =>
    follows_pure _
  exact (upholds_removeDeclaration c d).bind fun _ => follows_pure ()

end Edit

namespace Graph

open Outline

/-- The graph with one more declaration. -/
def insertDeclaration (g : Graph) (made : Declaration) : Graph :=
  { g with declarations := (g.declarations.insert made).2 }

/-- The handle that one more declaration gets. -/
def nextDeclaration (g : Graph) (made : Declaration) : DeclId := (g.declarations.insert made).1

variable {g : Graph} (made : Declaration)

section Insert

variable (htidy : g.declarations.Tidy)

include htidy

theorem declaration?_insertDeclaration (x : DeclId) : (g.insertDeclaration made).declaration? x =
    if x = g.nextDeclaration made then some made else g.declaration? x :=
  Store.get?_insert htidy made x

theorem declaration?_nextDeclaration : g.declaration? (g.nextDeclaration made) = none :=
  Store.get?_insert_new htidy made

theorem outline_insertDeclaration : (g.insertDeclaration made).outline =
    g.outline.insertDecl (g.nextDeclaration made) made.form := by
  unfold outline insertDecl
  congr 1
  funext x
  rw [declaration?_insertDeclaration made htidy]
  split <;> rfl

theorem sameEntries_insertDeclaration (hkey : made.key = none) :
    SameEntries g (g.insertDeclaration made) := by
  refine .of_held rfl (funext fun x => ?_) rfl (iff_of_true (Store.tidy_insert htidy made) htidy)
  unfold heldDeclaration
  rw [declaration?_insertDeclaration made htidy]
  split
  · next hx =>
    rw [hx, declaration?_nextDeclaration made htidy]
    exact hkey
  · rfl

end Insert

/-- A new declaration is held by nothing and is in the table nowhere. -/
theorem Consistent.insertDeclaration (hg : g.Consistent) (hcontext : made.context = none)
    (hkey : made.key = none) : (g.insertDeclaration made).Consistent := by
  have htidy := hg.entered.tidy
  have htree : SameTree g.outline (g.insertDeclaration made).outline := .refl _
  refine ⟨htree.tree hg.tree, ?_, (sameEntries_insertDeclaration made htidy hkey).entered hg.entered⟩
  rw [outline_insertDeclaration made htidy]
  refine hg.holds.insertDecl ?_ hcontext
  rw [outline_declaration_eq, declaration?_nextDeclaration made htidy]
  rfl

end Graph

namespace Edit

open Workspace ScopeGraph.Graph Outline

theorem upholds_newDeclaration {made : Declaration} (hcontext : made.context = none)
    (hkey : made.key = none) : Follows Upholds (newDeclaration made) := by
  intro w hw
  have htidy := hw.entered.tidy
  let g := w.graph.insertDeclaration made
  have hheld : g.heldDeclaration = w.graph.heldDeclaration :=
    (sameEntries_insertDeclaration made htidy hkey).declarations
  have htree : SameTree w.graph.outline g.outline := .refl _
  have hconsistent := hw.toConsistent.insertDeclaration made hcontext hkey
  refine ⟨⟨hconsistent, htree.rooted hw.rooted, htree.flagged hw.flagged, fun c => ?_, fun x => ?_⟩,
    htree.sameBranches.descends⟩
  · exact (hw.current.contexts c).trans (contextKey?_of_sameTree htree hw.tree c).symm
  · show g.heldDeclaration x = g.declarationKey? x
    rw [hheld]
    by_cases hx : x = w.graph.nextDeclaration made
    · have hnew : g.declarationKey? x = none := by
        unfold declarationKey?
        rw [declaration?_insertDeclaration made htidy, if_pos hx]
        simp [hcontext]
      rw [hnew, hx]
      unfold heldDeclaration
      rw [declaration?_nextDeclaration made htidy]
      rfl
    · rw [declarationKey?_of_sameTree htree hw.tree]
      · exact hw.current.declarations x
      · rw [outline_insertDeclaration made htidy]
        exact if_neg hx

theorem upholds_declare (c : ContextId) (name : Ident) (range : Span) (kind : DeclKind) :
    Follows Upholds (declare c name range kind) := by
  unfold declare
  refine (follows_needContext c).bind fun _ => (upholds_newDeclaration rfl rfl).bind fun d => ?_
  exact (upholds_addDeclaration c d).bind fun _ => follows_pure d

end Edit

end ScopeGraph
