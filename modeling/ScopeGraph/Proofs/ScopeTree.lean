/-
  File:      ScopeGraph/Proofs/ScopeTree.lean
  Subject:   The tree of contexts, who is registered in it, and the paths.

  * `Outline.Tree`: parents and children know of one another, and every chain of
    parents ends;
  * `Outline.Listed`: the part of it that says that children know of their parent;
  * `Outline.Matched`: the part of it that says nothing of chains of parents;
  * `Outline.Acyclic`: children lead from no context back to it, so they lead down a
    bounded number of levels (`Acyclic.shallow`);
  * `Outline.Rooted`: the top of a file is below nothing;
  * `Outline.Flagged`: a context is registered if its parent is, and an
    anonymous context is not;
  * `Outline.Holds`: contexts and their declarations know of one another;
  * `Flagged.below`: what is registered and has a context above it is found
    below this context by way of children. So what a change of a context does to
    paths in the symbol table is repaired in the context's subtree.
-/
import ScopeGraph.Proofs.Outline

namespace ScopeGraph

/-! ## 1. The tree -/

namespace Outline

/-- Parents and children know of one another and chains of parents end. Only
    an anonymous context may have a parent that is gone or does not know it. -/
structure Tree (o : Outline) : Prop where
  child : ∀ {p c : ContextId} {f : Form}, o.context p = some f → c ∈ f.children →
    ∃ fc, o.context c = some fc ∧ fc.anonymous = false ∧ fc.parent = some p
  parent : ∀ {c p : ContextId} {f : Form}, o.context c = some f → f.anonymous = false →
    f.parent = some p → ∃ fp, o.context p = some fp ∧ c ∈ fp.children
  nodup : ∀ {p : ContextId} {f : Form}, o.context p = some f → f.children.Nodup
  line : ∀ c, ∃ l, o.Line c l

/-- Children are there, are not anonymous, and name the parent that lists them. -/
def Listed (o : Outline) : Prop :=
  ∀ p c f, o.context p = some f → c ∈ f.children →
    ∃ fc, o.context c = some fc ∧ fc.anonymous = false ∧ fc.parent = some p

/-- Parents and children know of one another, however far chains of parents go. -/
structure Matched (o : Outline) : Prop where
  listed : o.Listed
  parent : ∀ {c p : ContextId} {f : Form}, o.context c = some f → f.anonymous = false →
    f.parent = some p → ∃ fp, o.context p = some fp ∧ c ∈ fp.children
  nodup : ∀ {p : ContextId} {f : Form}, o.context p = some f → f.children.Nodup

/-- Children lead from no context back to it. -/
def Acyclic (o : Outline) : Prop := ∀ c, ¬ Relation.TransGen o.Child c c

/-- Children lead from all of a list of contexts to this one. None is there twice. -/
def Above (o : Outline) (c : ContextId) (l : List ContextId) : Prop :=
  l.Nodup ∧ ∀ y ∈ l, Relation.TransGen o.Child y c

/-- The top of a file is below nothing. -/
def Rooted (o : Outline) : Prop :=
  ∀ c f, o.context c = some f → f.isTop = true → f.parent = none ∧ f.anonymous = false

/-- Registration goes from a context to its children. -/
structure Flagged (o : Outline) : Prop where
  inherit : ∀ {c p : ContextId} {f fp : Form}, o.context c = some f → f.anonymous = false →
    f.parent = some p → o.context p = some fp → f.registered = fp.registered
  anonymous : ∀ {c : ContextId} {f : Form}, o.context c = some f → f.anonymous = true →
    f.registered = false

/-- Contexts and their declarations know of one another. -/
structure Holds (o : Outline) : Prop where
  own : ∀ {c : ContextId} {f : Form} {d : DeclId}, o.context c = some f → d ∈ f.own →
    ∃ fd, o.declaration d = some fd ∧ fd.context = some c
  holder : ∀ {d : DeclId} {fd : DeclForm} {c : ContextId}, o.declaration d = some fd →
    fd.context = some c → ∃ f, o.context c = some f ∧ d ∈ f.own
  nodup : ∀ {c : ContextId} {f : Form}, o.context c = some f → f.own.Nodup

variable {o : Outline}

theorem Listed.parent?_of_child (hl : o.Listed) {p c : ContextId} (h : o.Child p c) :
    o.parent? c = some p := by
  obtain ⟨f, hf, hc⟩ := h
  obtain ⟨fc, hfc, _, hparent⟩ := hl p c f hf hc
  rw [parent?_of_context hfc, hparent]

/-- A context without a parent is no child. -/
theorem Listed.not_child_of_root (hl : o.Listed) {c : ContextId} (hroot : o.parent? c = none)
    {y : ContextId} : ¬ o.Child y c := by
  intro hy
  rw [hl.parent?_of_child hy] at hroot
  cases hroot

/-- Nor is an anonymous one. -/
theorem Listed.not_child_of_anonymous (hl : o.Listed) {c : ContextId} {f : Form}
    (hc : o.context c = some f) (hanon : f.anonymous = true) {y : ContextId} : ¬ o.Child y c := by
  rintro ⟨fy, hfy, hmem⟩
  obtain ⟨f', hf', hnot, _⟩ := hl y c fy hfy hmem
  cases hc.symm.trans hf'
  exact Bool.false_ne_true (hnot.symm.trans hanon)

/-- **Of two contexts that have something below both, one is below the other**: the way
    up goes by the parents that list what is below, and there is one such way. -/
theorem Listed.below_total (hl : o.Listed) {t u c : ContextId} (ht : o.Below t c)
    (hu : o.Below u c) : o.Below t u ∨ o.Below u t := by
  have hunique : Relator.RightUnique (Function.swap o.Child) := fun x y z hy hz =>
    Option.some.inj ((hl.parent?_of_child hy).symm.trans (hl.parent?_of_child hz))
  rcases Relation.ReflTransGen.total_of_right_unique hunique (Relation.reflTransGen_swap.mpr ht)
    (Relation.reflTransGen_swap.mpr hu) with h | h
  · exact .inr (Relation.reflTransGen_swap.mp h)
  · exact .inl (Relation.reflTransGen_swap.mp h)

theorem Tree.listed (ht : o.Tree) : o.Listed := fun _ _ _ hp hc => ht.child hp hc

theorem Tree.matched (ht : o.Tree) : o.Matched := ⟨ht.listed, ht.parent, ht.nodup⟩

/-- Where chains of parents end, parents and children that know of one another are a
    tree. -/
theorem Matched.tree (hm : o.Matched) (hline : ∀ c, ∃ l, o.Line c l) : o.Tree :=
  ⟨fun hp hc => hm.listed _ _ _ hp hc, hm.parent, hm.nodup, hline⟩

theorem Tree.parent?_of_child (ht : o.Tree) {p c : ContextId} (h : o.Child p c) :
    o.parent? c = some p := ht.listed.parent?_of_child h

/-- **What is registered below a context is below it by way of children**: only
    an anonymous context is missing among the children of its parent, and what
    is below it is not registered. -/
theorem Flagged.below (hf : o.Flagged) (ht : o.Tree) {x : ContextId} {l : List ContextId}
    (hl : o.Line x l) {f : Form} (hx : o.context x = some f) (hreg : f.registered = true)
    {c : ContextId} (hc : c ∈ l) : o.Below c x := by
  induction hl generalizing f with
  | root =>
    rw [List.mem_singleton.mp hc]
    exact .refl
  | @step x p l hs hl ih =>
    rcases List.mem_cons.mp hc with rfl | hc
    · exact .refl
    · have hanon : f.anonymous = false := by
        cases h : f.anonymous with
        | false => rfl
        | true =>
          rw [hf.anonymous hx h] at hreg
          cases hreg
      have hparent : f.parent = some p := by
        rw [← parent?_of_context hx]
        exact hs
      obtain ⟨fp, hfp, hmem⟩ := ht.parent hx hanon hparent
      have hregp : fp.registered = true := by rw [← hf.inherit hx hanon hparent hfp, hreg]
      exact .tail (ih hfp hregp hc) ⟨fp, hfp, hmem⟩

/-- What is below a context has it above. -/
theorem Tree.mem_line_of_below (ht : o.Tree) {c x : ContextId} (h : o.Below c x)
    {l : List ContextId} (hl : o.Line x l) : c ∈ l := by
  induction h generalizing l with
  | refl => exact hl.head
  | tail _ hstep ih =>
    have hparent := ht.parent?_of_child hstep
    cases hl with
    | root hr =>
      rw [hparent] at hr
      cases hr
    | step hs hl =>
      cases hparent.symm.trans hs
      exact List.mem_cons_of_mem _ (ih hl)

/-- A context is no child of what is below it. -/
theorem Tree.ne_of_below (ht : o.Tree) {c y z : ContextId} (h : o.Below c y) (hz : o.Child y z) :
    z ≠ c := by
  rintro rfl
  obtain ⟨l, hl⟩ := ht.line y
  have hnodup := (Line.step (ht.parent?_of_child hz) hl).nodup
  exact (List.nodup_cons.mp hnodup).1 (ht.mem_line_of_below h hl)

theorem Tree.acyclic (ht : o.Tree) : o.Acyclic := by
  intro c hc
  obtain ⟨y, hy, hchild⟩ := Relation.TransGen.tail'_iff.mp hc
  exact ht.ne_of_below hy hchild rfl

theorem Acyclic.above_child (ha : o.Acyclic) {p c : ContextId} {l : List ContextId}
    (hl : o.Above p l) (hc : o.Child p c) : o.Above c (p :: l) :=
  ⟨List.nodup_cons.mpr ⟨fun hp => ha p (hl.2 p hp), hl.1⟩,
    List.forall_mem_cons.mpr ⟨.single hc, fun y hy => (hl.2 y hy).tail hc⟩⟩

/-- What is strictly below a context has its parent there too. -/
theorem Tree.below_parent (ht : o.Tree) {c p x : ContextId} (h : o.Below c x) (hx : x ≠ c)
    (hchild : o.Child p x) : o.Below c p := by
  rcases Relation.ReflTransGen.cases_tail h with e | ⟨q, hq, hqx⟩
  · exact absurd e hx
  · have hpq := (ht.parent?_of_child hqx).symm.trans (ht.parent?_of_child hchild)
    cases hpq
    exact hq

/-- Below a context that is not anonymous no context is. -/
theorem Tree.anonymous_of_below (ht : o.Tree) {c x : ContextId} {f : Form}
    (hc : ∀ f, o.context c = some f → f.anonymous = false) (h : o.Below c x)
    (hx : o.context x = some f) : f.anonymous = false := by
  rcases Relation.ReflTransGen.cases_tail h with rfl | ⟨q, _, fq, hfq, hmem⟩
  · exact hc f hx
  · obtain ⟨f', hf', hanon, _⟩ := ht.child hfq hmem
    cases hx.symm.trans hf'
    exact hanon

end Outline

/-- What the tree is made of. -/
def Form.branch (f : Form) : Option ContextId × Bool × Multiset ContextId × Bool :=
  (f.parent, f.anonymous, f.children, f.isTop)

namespace Outline

variable {o : Outline}

/-- The contexts have the same places in the tree. -/
def SameBranches (o o' : Outline) : Prop :=
  ∀ x, (o'.context x).map Form.branch = (o.context x).map Form.branch

namespace SameBranches

variable {o' : Outline} (h : SameBranches o o')

theorem symm (h : SameBranches o o') : SameBranches o' o := fun x => (h x).symm

include h

theorem context {x : ContextId} {f' : Form} (hx : o'.context x = some f') :
    ∃ f, o.context x = some f ∧ f.parent = f'.parent ∧ f.anonymous = f'.anonymous ∧
      f.children = f'.children ∧ f.isTop = f'.isTop := by
  obtain ⟨f, hf, he⟩ := exists_of_map_eq (h x) hx
  simp only [Form.branch, Prod.mk.injEq] at he
  exact ⟨f, hf, he⟩

theorem parent? (x : ContextId) : o'.parent? x = o.parent? x := by
  have hx := congrArg (Option.bind · Prod.fst) (h x)
  rw [Option.bind_map, Option.bind_map] at hx
  exact hx

theorem child {p c : ContextId} (hc : o.Child p c) : o'.Child p c := by
  obtain ⟨f, hf, hmem⟩ := hc
  obtain ⟨f', hf', _, _, hchildren, _⟩ := h.symm.context hf
  exact ⟨f', hf', hchildren ▸ hmem⟩

theorem below {c x : ContextId} (hx : o.Below c x) : o'.Below c x :=
  Relation.ReflTransGen.mono (fun _ _ => h.child) _ _ hx

theorem listed (hl : o.Listed) : o'.Listed := by
  intro p c f' hp hc
  obtain ⟨f, hf, _, _, hchildren, _⟩ := h.context hp
  obtain ⟨fc, hfc, hanon, hparent⟩ := hl p c f hf (hchildren ▸ hc)
  obtain ⟨fc', hfc', hparent', hanon', _⟩ := h.symm.context hfc
  exact ⟨fc', hfc', hanon'.trans hanon, hparent'.trans hparent⟩

theorem matched (hm : o.Matched) : o'.Matched where
  listed := h.listed hm.listed
  parent := by
    intro c p f' hc hanon hparent
    obtain ⟨f, hf, hparent', hanon', _⟩ := h.context hc
    obtain ⟨fp, hfp, hmem⟩ := hm.parent hf (hanon'.trans hanon) (hparent'.trans hparent)
    obtain ⟨fp', hfp', _, _, hchildren, _⟩ := h.symm.context hfp
    exact ⟨fp', hfp', hchildren ▸ hmem⟩
  nodup := by
    intro p f' hp
    obtain ⟨f, hf, _, _, hchildren, _⟩ := h.context hp
    exact hchildren ▸ hm.nodup hf

theorem tree (ht : o.Tree) : o'.Tree := by
  refine (h.matched ht.matched).tree fun c => ?_
  obtain ⟨l, hl⟩ := ht.line c
  exact ⟨l, hl.congr fun y _ => h.parent? y⟩

theorem rooted (hr : o.Rooted) : o'.Rooted := by
  intro c f' hc htop
  obtain ⟨f, hf, hparent, hanon, _, htop'⟩ := h.context hc
  have hroot := hr c f hf (htop'.trans htop)
  exact ⟨hparent.symm.trans hroot.1, hanon.symm.trans hroot.2⟩

end SameBranches

/-- Who holds a declaration depends on the declarations and on the lists of
    the contexts. -/
theorem Holds.congr {o' : Outline} (hh : o.Holds)
    (h : ∀ x, (o'.context x).map Form.own = (o.context x).map Form.own)
    (hd : o'.declaration = o.declaration) : o'.Holds := by
  have hback : ∀ {x f'}, o'.context x = some f' → ∃ f, o.context x = some f ∧ f.own = f'.own := by
    intro x f' hx
    exact exists_of_map_eq (h x) hx
  refine ⟨fun hx hmem => ?_, fun {_ _ c} hd' hx => ?_, fun hx => ?_⟩
  · obtain ⟨f, hf, hown⟩ := hback hx
    rw [hd]
    exact hh.own hf (hown ▸ hmem)
  · rw [hd] at hd'
    obtain ⟨f, hf, hmem⟩ := hh.holder hd' hx
    have hown := h c
    rw [hf] at hown
    obtain ⟨f', hf', he⟩ := Option.map_eq_some_iff.mp hown
    exact ⟨f', hf', he ▸ hmem⟩
  · obtain ⟨f, hf, hown⟩ := hback hx
    exact hown ▸ hh.nodup hf

end Outline

namespace Graph

open Outline

variable {g : Graph}

/-- A context changed in a way that does not concern the tree. -/
theorem sameBranches_modifyContext (g : Graph) (c : ContextId) {f : Context → Context}
    (h : ∀ data, (f data).form.branch = data.form.branch) :
    SameBranches g.outline (g.modifyContext c f).outline := by
  intro x
  have hx := map_context?_modifyContext g c (v := fun data => data.form.branch) h x
  rw [outline_context_eq, outline_context_eq, Option.map_map, Option.map_map]
  exact hx

theorem length_above_le {c : ContextId} {l : List ContextId} (h : g.outline.Above c l) :
    l.length ≤ g.contexts.capacity := by
  refine length_le_of_live h.1 fun y hy => ?_
  obtain ⟨_, ⟨f, hf, _⟩, _⟩ := Relation.TransGen.head'_iff.mp (h.2 y hy)
  exact Option.isSome_iff_exists.mpr ⟨f, hf⟩

/-- Every level down has one more context above it. -/
theorem shallow_of_above (ha : g.outline.Acyclic) {n : Nat} {c : ContextId} {l : List ContextId}
    (hl : g.outline.Above c l) (hn : g.contexts.capacity < n + l.length) :
    g.outline.Shallow n c := by
  induction n generalizing c l with
  | zero =>
    have hle := length_above_le hl
    omega
  | succ n ih =>
    intro child hchild
    refine ih (ha.above_child hl hchild) ?_
    rw [List.length_cons]
    omega

/-- **Children lead down a bounded number of levels**, if they lead nowhere back. -/
theorem shallow (ha : g.outline.Acyclic) (c : ContextId) : g.outline.Shallow g.chainBound c :=
  shallow_of_above ha ⟨List.nodup_nil, nofun⟩ (Nat.lt_succ_self _)

/-- **The subtree is all that children lead to.** -/
theorem mem_subtree_iff (ha : g.outline.Acyclic) {c x : ContextId} :
    x ∈ g.subtree c ↔ g.outline.Below c x :=
  mem_subtreeWithin_iff (fun _ _ => Iff.rfl) (shallow ha c) x

theorem mem_subtreeBackwards_iff (ha : g.outline.Acyclic) {c x : ContextId} :
    x ∈ g.subtreeBackwards c ↔ g.outline.Below c x :=
  mem_subtreeWithin_iff (fun _ _ => List.mem_reverse) (shallow ha c) x

theorem mem_localDeclarations_iff {c : ContextId} {d : DeclId} :
    d ∈ g.localDeclarations c ↔ ∃ f, g.outline.context c = some f ∧ d ∈ f.own := by
  unfold localDeclarations
  rw [outline_context_eq]
  cases g.context? c <;> simp [Context.form]

theorem nodup_children (hm : g.outline.Matched) (p : ContextId) : (g.children p).Nodup := by
  unfold children
  cases hp : g.context? p with
  | none => exact List.nodup_nil
  | some above => exact hm.nodup (outline_context.mpr ⟨above, hp, rfl⟩)

theorem nodup_localDeclarations (hh : g.outline.Holds) (c : ContextId) :
    (g.localDeclarations c).Nodup := by
  unfold localDeclarations
  cases hc : g.context? c with
  | none => exact List.nodup_nil
  | some data => exact hh.nodup (outline_context.mpr ⟨data, hc, rfl⟩)

end Graph

/-! ## 2. Paths and keys -/

namespace Outline

/-- What the path of a context and of all below it takes from it. -/
def Agree (o o' : Outline) (y : ContextId) : Prop :=
  (o'.context y).map (fun f => (f.parent, f.scope)) = (o.context y).map fun f => (f.parent, f.scope)

/-- The scope name of a context. -/
def scopeOf (o : Outline) (c : ContextId) : Path := ((o.context c).map (·.scope)).getD []

variable {o o' : Outline}

theorem Agree.of_eq {y : ContextId} (h : o'.context y = o.context y) : o.Agree o' y := by
  unfold Agree
  rw [h]

theorem Agree.parent? {y : ContextId} (h : o.Agree o' y) : o'.parent? y = o.parent? y := by
  unfold Agree at h
  unfold Outline.parent?
  cases hy : o.context y <;> cases hy' : o'.context y <;> simp_all

theorem Agree.scopeOf {y : ContextId} (h : o.Agree o' y) : o'.scopeOf y = o.scopeOf y := by
  unfold Agree at h
  unfold Outline.scopeOf
  cases hy : o.context y <;> cases hy' : o'.context y <;> simp_all

theorem Line.of_agree {c : ContextId} {l : List ContextId} (h : o.Line c l)
    (ha : ∀ y ∈ l, o.Agree o' y) : o'.Line c l :=
  h.congr fun y hy => (ha y hy).parent?

end Outline

namespace Graph

variable {g g' : Graph}

theorem scopePath_eq (c : ContextId) :
    g.scopePath c = (g.lineage c).reverse.flatMap g.outline.scopeOf := by
  unfold scopePath scopePathWith
  congr 1
  funext x
  unfold scopePart Outline.scopeOf
  rw [outline_context_eq]
  cases g.context? x <;> rfl

/-- The path of a context is the same where the outlines agree on its chain. -/
theorem scopePath_of_agree {c : ContextId} {l : List ContextId} (hl : g.outline.Line c l)
    (ha : ∀ y ∈ l, g.outline.Agree g'.outline y) : g'.scopePath c = g.scopePath c := by
  rw [scopePath_eq, scopePath_eq, lineage_eq hl, lineage_eq (hl.of_agree ha)]
  refine List.flatMap_congr fun y hy => ?_
  exact (ha y (List.mem_reverse.mp hy)).scopeOf

theorem contextKey?_eq (c : ContextId) :
    g.contextKey? c = (g.outline.context c).bind fun f =>
      if f.registered && !f.anonymous && !f.scope.isEmpty then some (g.scopePath c) else none := by
  unfold contextKey?
  rw [outline_context_eq]
  cases g.context? c <;> rfl

theorem registers_eq (c : ContextId) :
    g.registers c = (g.outline.context c).any fun f =>
      f.registered && f.kind.registersDeclarations := by
  unfold registers
  rw [outline_context_eq]
  cases g.context? c <;> rfl

theorem registers_iff {c : ContextId} :
    g.registers c = true ↔ ∃ f, g.outline.context c = some f ∧ f.registered = true ∧
      f.kind.registersDeclarations = true := by
  rw [registers_eq]
  cases g.outline.context c <;> simp

theorem declarationKey?_eq (d : DeclId) :
    g.declarationKey? d = (g.outline.declaration d).bind fun f =>
      if f.context.any g.registers then
        some ((f.context.map g.scopePath).getD [] ++ [f.name]) else none := by
  unfold declarationKey?
  rw [outline_declaration_eq]
  cases hd : g.declaration? d with
  | none => rfl
  | some data =>
    show (if data.context.any g.registers then some (g.pathOf data) else none) =
      if data.context.any g.registers then
        some ((data.context.map g.scopePath).getD [] ++ [data.name]) else none
    unfold pathOf
    cases data.context <;> rfl

/-- The key of a context is the same if the context stands as it did and, where
    it is registered, its path is the same. -/
theorem contextKey?_congr {c : ContextId}
    (h : (g'.outline.context c).map (fun f => (f.registered, f.anonymous, f.scope)) =
      (g.outline.context c).map fun f => (f.registered, f.anonymous, f.scope))
    (hpath : ∀ f, g.outline.context c = some f → f.registered = true →
      g'.scopePath c = g.scopePath c) : g'.contextKey? c = g.contextKey? c := by
  rw [contextKey?_eq, contextKey?_eq]
  cases hc : g.outline.context c with
  | none =>
    rw [hc] at h
    rw [Option.map_eq_none_iff.mp h]
    rfl
  | some f =>
    rw [hc] at h
    obtain ⟨f', hf', hsame⟩ := Option.map_eq_some_iff.mp h
    obtain ⟨hreg, hanon, hscope⟩ : f'.registered = f.registered ∧ f'.anonymous = f.anonymous ∧
        f'.scope = f.scope := by simpa using hsame
    rw [hf']
    simp only [Option.bind_some, hreg, hanon, hscope]
    cases hr : f.registered with
    | false => simp
    | true => rw [hpath f hc hr]

/-- The key of a declaration is the same if its holder registers declarations
    as it did and, where it does, has the same path. -/
theorem declarationKey?_congr {d : DeclId}
    (h : g'.outline.declaration d = g.outline.declaration d)
    (hholder : ∀ f c, g.outline.declaration d = some f → f.context = some c →
      g'.registers c = g.registers c ∧ (g.registers c = true → g'.scopePath c = g.scopePath c)) :
    g'.declarationKey? d = g.declarationKey? d := by
  rw [declarationKey?_eq, declarationKey?_eq, h]
  cases hd : g.outline.declaration d with
  | none => rfl
  | some f =>
    simp only [Option.bind_some]
    cases hc : f.context with
    | none => rfl
    | some c =>
      obtain ⟨hreg, hpath⟩ := hholder f c hd hc
      simp only [Option.any_some, Option.map_some, Option.getD_some, hreg]
      cases hr : g.registers c with
      | false => rfl
      | true => rw [hpath hr]

/-! ## 3. Graphs of the same outline -/

/-- The view of the outline, and of how far walks go. -/
def View.shape : View Form DeclForm (Outline × Nat) where
  context := Context.form
  declaration := Declaration.form
  shown contexts declarations _ _ := (⟨contexts.get?, declarations.get?⟩, contexts.capacity)

/-- The outlines are the same, and no walk is cut shorter. -/
abbrev SameShape : Graph → Graph → Prop := View.shape.Same

namespace SameShape

theorem outline (h : SameShape g g') : g'.outline = g.outline :=
  View.Same.outline (congrArg Prod.fst h)

theorem capacity (h : SameShape g g') : g'.contexts.capacity = g.contexts.capacity := by
  have hcapacity := congrArg Prod.snd h
  exact (Store.capacity_map _ _).symm.trans (hcapacity.trans (Store.capacity_map _ _))

theorem lineage (h : SameShape g g') (c : ContextId) : g'.lineage c = g.lineage c := by
  have hwithin : ∀ n c, g'.lineageWithin n c = g.lineageWithin n c := by
    intro n
    induction n with
    | zero => exact fun _ => rfl
    | succ n ih =>
      intro c
      unfold lineageWithin
      rw [parent?_eq, parent?_eq, h.outline]
      cases g.outline.parent? c with
      | none => rfl
      | some p =>
        dsimp only
        rw [ih]
  unfold Graph.lineage chainBound
  rw [h.capacity, hwithin]

theorem scopePath (h : SameShape g g') (c : ContextId) : g'.scopePath c = g.scopePath c := by
  rw [scopePath_eq, scopePath_eq, h.lineage, h.outline]

theorem contextKey? (h : SameShape g g') (c : ContextId) : g'.contextKey? c = g.contextKey? c :=
  contextKey?_congr (by rw [h.outline]) fun _ _ _ => h.scopePath c

theorem declarationKey? (h : SameShape g g') (d : DeclId) :
    g'.declarationKey? d = g.declarationKey? d := by
  refine declarationKey?_congr (by rw [h.outline]) fun _ c _ _ => ⟨?_, fun _ => h.scopePath c⟩
  rw [registers_eq, registers_eq, h.outline]

end SameShape

end Graph

/-! ## 4. Graphs of the same stock -/

/-- What lists and indices depend on in a context. -/
def Context.stock (data : Context) :
    Position × Option ContextId × Bool × List ContextId × Locals :=
  (data.range.start, data.parent, data.propagates, data.children, data.locals)

/-- What lists and indices depend on in a declaration. -/
def Declaration.stock (data : Declaration) : Position × DeclForm := (data.range.start, data.form)

namespace Graph

/-- All lists and indices are the same, and so is what they depend on. -/
abbrev SameStock : Graph → Graph → Prop := (View.ofParts Context.stock Declaration.stock).Same

end Graph

end ScopeGraph
