/-
  File:      ScopeGraph/Proofs/Outline.lean
  Subject:   What the symbol table depends on in a graph.

  Where a node belongs in the symbol table depends on little: on the tree of
  contexts, their kinds and scope names, whether they are registered, and which
  declarations they hold. The OUTLINE of a graph is this and nothing else,
  without the order in which children and declarations stand. What an edit does
  is said as what it does to the outline.

  * `Outline.Line`: the chain from a context upwards. If it ends, it is the
    lineage of the graph (`lineage_eq`);
  * `Outline.Below`: what children lead to. If all chains end, it is the
    subtree of the graph (`mem_subtreeWithin_iff`).
-/
import Mathlib.Data.Multiset.AddSub
import Mathlib.Data.Multiset.Filter
import Mathlib.Data.Multiset.UnionInter
import Mathlib.Logic.Relation
import ScopeGraph.Proofs.Frames

namespace ScopeGraph

/-! ## 1. Outlines -/

/-- What registration depends on in a context. -/
structure Form where
  kind : ContextKind
  scope : Path
  parent : Option ContextId
  anonymous : Bool
  children : Multiset ContextId
  own : Multiset DeclId
  registered : Bool
  isTop : Bool

/-- What registration depends on in a declaration. -/
structure DeclForm where
  name : Ident
  context : Option ContextId

/-- The form of a context. -/
def Context.form (data : Context) : Form where
  kind := data.kind
  scope := data.scopeName.path
  parent := data.parent
  anonymous := data.anonymous
  children := data.children
  own := data.locals.ordered
  registered := data.registered
  isTop := data.isTop

/-- The form of a declaration. -/
def Declaration.form (data : Declaration) : DeclForm := ⟨data.name, data.context⟩

/-- The forms of all nodes. -/
structure Outline where
  context : ContextId → Option Form
  declaration : DeclId → Option DeclForm

/-- The outline of a graph. -/
def Graph.outline (g : Graph) : Outline where
  context c := (g.context? c).map Context.form
  declaration d := (g.declaration? d).map Declaration.form

theorem Graph.outline_context_eq (g : Graph) (c : ContextId) :
    g.outline.context c = (g.context? c).map Context.form := rfl

theorem Graph.outline_declaration_eq (g : Graph) (d : DeclId) :
    g.outline.declaration d = (g.declaration? d).map Declaration.form := rfl

/-- The index of a context is no part of its form. -/
theorem Context.form_locals (data : Context) (l : Locals) (h : l.ordered = data.locals.ordered) :
    { data with locals := l }.form = data.form := by
  unfold form
  rw [h]
  rfl

/-- The view of the outline. -/
def Graph.View.outline : View Form DeclForm Outline where
  context := Context.form
  declaration := Declaration.form
  shown contexts declarations _ _ := ⟨contexts.get?, declarations.get?⟩

theorem Graph.View.outline_of (g : Graph) : View.outline.of g = g.outline := by
  have hcontexts := funext (Store.get?_map Context.form g.contexts)
  have hdeclarations := funext (Store.get?_map Declaration.form g.declarations)
  exact congrArg₂ Outline.mk hcontexts hdeclarations

theorem Graph.View.Same.outline {g g' : Graph} (h : View.outline.Same g g') :
    g'.outline = g.outline := by
  rw [← outline_of, ← outline_of]
  exact h

namespace Outline

/-- The outline with one context changed. -/
def modify (o : Outline) (c : ContextId) (f : Form → Form) : Outline :=
  { o with context := fun x => if x = c then (o.context x).map f else o.context x }

/-- The outline with one declaration changed. -/
def modifyDecl (o : Outline) (d : DeclId) (f : DeclForm → DeclForm) : Outline :=
  { o with declaration := fun x => if x = d then (o.declaration x).map f else o.declaration x }

/-- The outline without a context. -/
def erase (o : Outline) (c : ContextId) : Outline :=
  { o with context := fun x => if x = c then none else o.context x }

/-- The outline without a declaration. -/
def eraseDecl (o : Outline) (d : DeclId) : Outline :=
  { o with declaration := fun x => if x = d then none else o.declaration x }

variable (o : Outline)

theorem modify_self {c : ContextId} {f : Form → Form} {a : Form} (h : o.context c = some a) :
    (o.modify c f).context c = some (f a) := by
  show (if c = c then (o.context c).map f else o.context c) = _
  rw [if_pos rfl, h]
  rfl

theorem modify_of_ne {c x : ContextId} (f : Form → Form) (h : x ≠ c) :
    (o.modify c f).context x = o.context x := if_neg h

theorem modifyDecl_self {d : DeclId} {f : DeclForm → DeclForm} {a : DeclForm}
    (h : o.declaration d = some a) : (o.modifyDecl d f).declaration d = some (f a) := by
  show (if d = d then (o.declaration d).map f else o.declaration d) = _
  rw [if_pos rfl, h]
  rfl

theorem modifyDecl_of_ne {d x : DeclId} (f : DeclForm → DeclForm) (h : x ≠ d) :
    (o.modifyDecl d f).declaration x = o.declaration x := if_neg h

/-- A changed context was there before, and the others are the same. -/
theorem of_modify {o : Outline} {c x : ContextId} {f : Form → Form} {a' : Form}
    (h : (o.modify c f).context x = some a') :
    ∃ a, o.context x = some a ∧ a' = if x = c then f a else a := by
  by_cases hx : x = c
  · have h : (o.context x).map f = some a' := by
      rw [← h]
      exact (if_pos hx).symm
    obtain ⟨a, ha, rfl⟩ := Option.map_eq_some_iff.mp h
    exact ⟨a, ha, (if_pos hx).symm⟩
  · rw [modify_of_ne o f hx] at h
    exact ⟨a', h, (if_neg hx).symm⟩

theorem of_modifyDecl {o : Outline} {d x : DeclId} {f : DeclForm → DeclForm} {a' : DeclForm}
    (h : (o.modifyDecl d f).declaration x = some a') :
    ∃ a, o.declaration x = some a ∧ a' = if x = d then f a else a := by
  by_cases hx : x = d
  · have h : (o.declaration x).map f = some a' := by
      rw [← h]
      exact (if_pos hx).symm
    obtain ⟨a, ha, rfl⟩ := Option.map_eq_some_iff.mp h
    exact ⟨a, ha, (if_pos hx).symm⟩
  · rw [modifyDecl_of_ne o f hx] at h
    exact ⟨a', h, (if_neg hx).symm⟩

end Outline

/-! ## 2. The outline of a changed graph -/

namespace Graph

variable {g : Graph}

theorem outline_modifyContext {c : ContextId} {f : Context → Context} {v : Form → Form}
    (h : ∀ data, (f data).form = v data.form) :
    (g.modifyContext c f).outline = g.outline.modify c v := by
  unfold outline Outline.modify
  congr 1
  funext x
  rw [context?_modifyContext]
  by_cases hx : x = c
  · rw [if_pos hx, if_pos hx, Option.map_map, Option.map_map]
    congr 1
    funext data
    exact h data
  · rw [if_neg hx, if_neg hx]

theorem outline_modifyDeclaration {d : DeclId} {f : Declaration → Declaration}
    {v : DeclForm → DeclForm} (h : ∀ data, (f data).form = v data.form) :
    (g.modifyDeclaration d f).outline = g.outline.modifyDecl d v := by
  unfold outline Outline.modifyDecl
  congr 1
  funext x
  rw [declaration?_modifyDeclaration]
  by_cases hx : x = d
  · rw [if_pos hx, if_pos hx, Option.map_map, Option.map_map]
    congr 1
    funext data
    exact h data
  · rw [if_neg hx, if_neg hx]

end Graph

theorem insertByStart_perm {α : Type} (startOf : α → Position) (a : α) (start : Position)
    (l : List α) : (insertByStart startOf a start l).Perm (a :: l) := by
  induction l with
  | nil => exact .refl _
  | cons x rest ih =>
    unfold insertByStart
    split
    · exact .refl _
    · exact (ih.cons x).trans (.swap a x rest)

namespace Graph

variable {g : Graph}

theorem outline_modifyAll {f : Locals → Locals} (h : ∀ l, (f l).ordered = l.ordered)
    (cs : List ContextId) : (g.modifyAll f cs).outline = g.outline :=
  View.Same.outline (.modifyAll Context.form_locals g h cs)

theorem map_context?_modifyAll {α : Type} {v : Context → α}
    {f : Locals → Locals} (hv : ∀ data : Context, v { data with locals := f data.locals } = v data)
    (cs : List ContextId) (x : ContextId) :
    ((g.modifyAll f cs).context? x).map v = (g.context? x).map v :=
  View.Same.map_context? (related_foldl (fun g c => .modifyContext g c hv) cs g) x

theorem outline_spreadNames (c : ContextId) (names : List (Ident × DeclId)) :
    (g.spreadNames c names).outline = g.outline :=
  outline_modifyAll (Locals.ordered_addNames names) _

theorem outline_recallNames (c : ContextId) (names : List (Ident × DeclId)) :
    (g.recallNames c names).outline = g.outline :=
  outline_modifyAll (Locals.ordered_dropNames names) _

theorem outline_shareWithParent (c : ContextId) : (g.shareWithParent c).outline = g.outline :=
  View.Same.outline (.shareWithParent Context.form_locals g c)

theorem outline_withdrawFromParent (c : ContextId) :
    (g.withdrawFromParent c).outline = g.outline :=
  View.Same.outline (.withdrawFromParent Context.form_locals g c)

theorem map_context?_withdrawFromParent {α : Type} {v : Context → α} {c : ContextId}
    (hv : ∀ (data : Context) (l : Locals), l.ordered = data.locals.ordered →
      v { data with locals := l } = v data) (x : ContextId) :
    ((g.withdrawFromParent c).context? x).map v = (g.context? x).map v :=
  View.Same.map_context? (.withdrawFromParent hv g c) x

theorem declarations_unlinkChild (p c : ContextId) :
    (g.unlinkChild p c).declarations = g.declarations :=
  declarations_withdrawFromParent c

theorem declarations_linkChild (p c : ContextId) :
    (g.linkChild p c).declarations = g.declarations :=
  declarations_shareWithParent c

section Blind

-- a view that sees neither the tree nor what contexts hold is the same after edits of these
variable {α : Type} {v : Context → α} (hv : ∀ (data : Context) (parent : Option ContextId)
  (children : List ContextId) (locals : Locals), v { data with
    parent := parent, children := children, locals := locals } = v data)

include hv

theorem map_context?_attach (c : ContextId) (d : DeclId) (x : ContextId) :
    ((g.attach c d).context? x).map v = (g.context? x).map v :=
  View.Same.map_context? (.attach (fun data => hv data data.parent data.children) g c d) x

theorem map_context?_detach (c : ContextId) (d : DeclId) (x : ContextId) :
    ((g.detach c d).context? x).map v = (g.context? x).map v :=
  View.Same.map_context? (.detach (fun data => hv data data.parent data.children) g c d) x

theorem map_context?_shareWithParent (c x : ContextId) :
    ((g.shareWithParent c).context? x).map v = (g.context? x).map v :=
  View.Same.map_context?
    (.shareWithParent (fun data l _ => hv data data.parent data.children l) g c) x

theorem map_context?_unlinkChild (p c x : ContextId) :
    ((g.unlinkChild p c).context? x).map v = (g.context? x).map v :=
  View.Same.map_context? (.unlinkChild (fun data l _ => hv data data.parent data.children l)
    (fun data q => hv data q data.children data.locals)
    (fun data cs => hv data data.parent cs data.locals) g p c) x

theorem map_context?_linkChild (p c x : ContextId) :
    ((g.linkChild p c).context? x).map v = (g.context? x).map v := by
  unfold linkChild
  dsimp only
  rw [map_context?_shareWithParent hv, map_context?_modifyContext, map_context?_modifyContext]
  · exact fun data => hv data data.parent _ data.locals
  · exact fun data => hv data (some p) data.children data.locals

end Blind

theorem outline_attach {c : ContextId} {d : DeclId} {data : Declaration}
    (hd : g.declaration? d = some data) :
    (g.attach c d).outline = g.outline.modify c fun f => { f with own := d ::ₘ f.own } := by
  unfold attach
  rw [hd]
  dsimp only
  rw [outline_spreadNames]
  refine outline_modifyContext fun data' => ?_
  have hown : ((insertByStart g.startOfDeclaration d data.range.start data'.locals.ordered :
      List DeclId) : Multiset DeclId) = d ::ₘ data'.locals.ordered :=
    Multiset.coe_eq_coe.mpr (insertByStart_perm _ _ _ _)
  unfold Context.form Locals.place
  rw [hown]
  rfl

theorem outline_detach {c : ContextId} {d : DeclId} {data : Declaration}
    (hd : g.declaration? d = some data) :
    (g.detach c d).outline = g.outline.modify c fun f => { f with own := f.own.erase d } := by
  unfold detach
  rw [hd]
  dsimp only
  rw [outline_recallNames]
  exact outline_modifyContext fun _ => rfl

theorem outline_unlinkChild (p c : ContextId) :
    (g.unlinkChild p c).outline =
      (g.outline.modify p fun f => { f with children := f.children.filter (· ≠ c) }).modify c
        fun f => { f with parent := if f.parent = some p then none else f.parent } := by
  unfold unlinkChild
  rw [outline_modifyContext (v := fun f =>
    { f with parent := if f.parent = some p then none else f.parent })]
  · rw [outline_modifyContext (v := fun f => { f with children := f.children.filter (· ≠ c) })]
    · rw [outline_withdrawFromParent]
    · intro data
      rfl
  · intro data
    unfold Context.form
    dsimp only
    split <;> rfl

theorem outline_linkChild (p c : ContextId) :
    (g.linkChild p c).outline =
      (g.outline.modify p fun f => { f with children := c ::ₘ f.children }).modify c
        fun f => { f with parent := some p } := by
  unfold linkChild
  dsimp only
  rw [outline_shareWithParent, outline_modifyContext (v := fun f => { f with parent := some p })]
  · rw [outline_modifyContext (v := fun f => { f with children := c ::ₘ f.children })]
    intro data
    have hchildren : ((insertByStart g.startOfContext c (g.startOfContext c) data.children :
        List ContextId) : Multiset ContextId) = c ::ₘ data.children :=
      Multiset.coe_eq_coe.mpr (insertByStart_perm _ _ _ _)
    unfold Context.form
    rw [hchildren]
    rfl
  · intro data
    rfl

end Graph

/-! ## 3. Upwards -/

namespace Outline

variable (o : Outline)

/-- The parent of a context. -/
def parent? (c : ContextId) : Option ContextId := (o.context c).bind (·.parent)

/-- The chain of contexts from one upwards ends, and is this list. -/
inductive Line : ContextId → List ContextId → Prop where
  | root {c : ContextId} : o.parent? c = none → Line c [c]
  | step {c p : ContextId} {l : List ContextId} :
      o.parent? c = some p → Line p l → Line c (c :: l)

variable {o}

theorem parent?_of_context {c : ContextId} {f : Form} (h : o.context c = some f) :
    o.parent? c = f.parent := by
  unfold parent?
  rw [h]
  rfl

namespace Line

variable {c : ContextId} {l : List ContextId}

theorem head (h : o.Line c l) : c ∈ l := by
  cases h <;> exact List.mem_cons_self

theorem unique {l' : List ContextId} (h : o.Line c l) (h' : o.Line c l') : l = l' := by
  induction h generalizing l' with
  | root hr =>
    cases h' with
    | root => rfl
    | step hs _ =>
      rw [hr] at hs
      cases hs
  | step hs _ ih =>
    cases h' with
    | root hr =>
      rw [hr] at hs
      cases hs
    | step hs' hl' =>
      cases hs.symm.trans hs'
      rw [ih hl']

/-- The chain from a context of a chain is the rest of the chain. -/
theorem of_suffix (h : o.Line c l) {y : ContextId} {above : List ContextId}
    (hy : (y :: above) <:+ l) : o.Line y (y :: above) := by
  induction h with
  | root hr =>
    rcases List.suffix_cons_iff.mp hy with e | hy
    · cases e
      exact .root hr
    · cases List.suffix_nil.mp hy
  | step hs hl ih =>
    rcases List.suffix_cons_iff.mp hy with e | hy
    · cases e
      exact .step hs hl
    · exact ih hy

theorem suffix (h : o.Line c l) {y : ContextId} (hy : y ∈ l) : ∃ l', o.Line y l' ∧ l' <:+ l := by
  obtain ⟨before, above, rfl⟩ := List.append_of_mem hy
  have hrest : (y :: above) <:+ before ++ y :: above := List.suffix_append before (y :: above)
  exact ⟨y :: above, h.of_suffix hrest, hrest⟩

/-- A chain comes to no context twice. -/
theorem nodup (h : o.Line c l) : l.Nodup := by
  induction h with
  | root => exact List.nodup_singleton _
  | @step c p l hs hl ih =>
    refine List.nodup_cons.mpr ⟨fun hmem => ?_, ih⟩
    obtain ⟨l', hl', hsuf⟩ := hl.suffix hmem
    have hlen := hsuf.length_le
    rw [hl'.unique (.step hs hl), List.length_cons] at hlen
    omega

theorem congr {o' : Outline} (h : o.Line c l) (hp : ∀ y ∈ l, o'.parent? y = o.parent? y) :
    o'.Line c l := by
  induction h with
  | root hr => exact .root ((hp _ List.mem_cons_self).trans hr)
  | step hs _ ih =>
    exact .step ((hp _ List.mem_cons_self).trans hs) (ih fun y hy => hp y (List.mem_cons_of_mem _ hy))

/-- If one context gets another parent, chains still end if the one from this
    context does. -/
theorem reroute {o' : Outline} {x : ContextId} (h : o.Line x l)
    (hp : ∀ y, y ≠ c → o'.parent? y = o.parent? y) (hc : ∃ l', o'.Line c l') :
    ∃ l', o'.Line x l' := by
  induction h with
  | @root x hr =>
    by_cases hx : x = c
    · exact hx ▸ hc
    · exact ⟨_, .root ((hp x hx).trans hr)⟩
  | @step x p l hs _ ih =>
    by_cases hx : x = c
    · exact hx ▸ hc
    · obtain ⟨l', hl'⟩ := ih
      exact ⟨_, .step ((hp x hx).trans hs) hl'⟩

/-- All of a chain but its end is there. -/
theorem live (h : o.Line c l) : ∀ y ∈ l.dropLast, (o.context y).isSome := by
  induction h with
  | root => exact fun y hy => absurd hy List.not_mem_nil
  | @step c p l hs hl ih =>
    intro y hy
    rw [List.dropLast_cons_of_ne_nil (List.ne_nil_of_mem hl.head)] at hy
    rcases List.mem_cons.mp hy with rfl | hy
    · unfold parent? at hs
      obtain ⟨f, hf, _⟩ := Option.bind_eq_some_iff.mp hs
      exact Option.isSome_iff_exists.mpr ⟨f, hf⟩
    · exact ih y hy

end Line

end Outline

namespace Graph

variable {g : Graph}

theorem outline_context {c : ContextId} {f : Form} :
    g.outline.context c = some f ↔ ∃ data, g.context? c = some data ∧ data.form = f :=
  Option.map_eq_some_iff

theorem outline_declaration {d : DeclId} {f : DeclForm} :
    g.outline.declaration d = some f ↔ ∃ data, g.declaration? d = some data ∧ data.form = f :=
  Option.map_eq_some_iff

theorem parent?_eq (c : ContextId) : g.parent? c = g.outline.parent? c := by
  unfold parent? Outline.parent?
  rw [outline_context_eq]
  cases g.context? c <;> rfl

theorem lineageWithin_eq {c : ContextId} {l : List ContextId} (h : g.outline.Line c l) (n : Nat) :
    g.lineageWithin n c = l.take n := by
  induction h generalizing n with
  | @root c hr =>
    cases n with
    | zero => rfl
    | succ n =>
      unfold lineageWithin
      rw [parent?_eq, hr, List.take_succ_cons, List.take_nil]
  | @step c p l hs _ ih =>
    cases n with
    | zero => rfl
    | succ n =>
      unfold lineageWithin
      rw [parent?_eq, hs, List.take_succ_cons, ← ih n]

/-- There are no more contexts than there is room for. -/
theorem length_le_of_live {l : List ContextId} (hl : l.Nodup)
    (h : ∀ y ∈ l, (g.outline.context y).isSome) : l.length ≤ g.contexts.capacity := by
  refine Store.length_le_capacity hl fun y hy => ?_
  have hy := h y hy
  rw [outline_context_eq, Option.isSome_map] at hy
  exact hy

theorem length_line_le {c : ContextId} {l : List ContextId} (h : g.outline.Line c l) :
    l.length ≤ g.chainBound := by
  have hdrop := length_le_of_live (h.nodup.sublist (List.dropLast_sublist l)) h.live
  rw [List.length_dropLast] at hdrop
  unfold chainBound
  omega

/-- **If the chain from a context ends, it is the context's lineage.** -/
theorem lineage_eq {c : ContextId} {l : List ContextId} (h : g.outline.Line c l) :
    g.lineage c = l := by
  unfold lineage
  rw [lineageWithin_eq h, List.take_of_length_le (length_line_le h)]

end Graph

/-! ## 4. Downwards -/

namespace Outline

variable (o : Outline)

/-- A context is there and has another one among its children. -/
def Child (p c : ContextId) : Prop := ∃ f, o.context p = some f ∧ c ∈ f.children

/-- Children lead from one context to another. -/
def Below : ContextId → ContextId → Prop := Relation.ReflTransGen o.Child

/-- Children lead at most `n` levels down from a context, itself counted. -/
def Shallow : Nat → ContextId → Prop
  | 0, _ => False
  | n + 1, c => ∀ child, o.Child c child → Shallow n child

end Outline

namespace Graph

variable {g : Graph}

theorem mem_children_iff {p c : ContextId} : c ∈ g.children p ↔ g.outline.Child p c := by
  unfold children Outline.Child
  rw [outline_context_eq]
  cases g.context? p <;> simp [Context.form]

theorem mem_subtreeWithin_iff {order : List ContextId → List ContextId}
    (horder : ∀ l x, x ∈ order l ↔ x ∈ l) {n : Nat} {c : ContextId} (hn : g.outline.Shallow n c)
    (x : ContextId) : x ∈ g.subtreeWithin order n c ↔ g.outline.Below c x := by
  induction n generalizing c with
  | zero => exact hn.elim
  | succ n ih =>
    unfold subtreeWithin
    rw [List.mem_cons, List.mem_flatMap]
    constructor
    · rintro (rfl | ⟨child, hchild, hx⟩)
      · exact .refl
      · have hchild := mem_children_iff.mp ((horder _ _).mp hchild)
        exact .head hchild ((ih (hn child hchild)).mp hx)
    · intro hx
      rcases Relation.ReflTransGen.cases_head hx with rfl | ⟨child, hchild, hx⟩
      · exact .inl rfl
      · exact .inr ⟨child, (horder _ _).mpr (mem_children_iff.mpr hchild),
          (ih (hn child hchild)).mpr hx⟩

end Graph

end ScopeGraph
