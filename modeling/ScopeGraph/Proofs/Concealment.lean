/-
  File:      ScopeGraph/Proofs/Concealment.lean
  Subject:   What a file taken out of the symbol table takes with it.

  A file that is unregistered stays as it is; only the table changes, and in the
  table only what it held of this file. What is left stands in the order in which
  it stood.

  * `Graph.SameSetting`: two graphs whose contexts are of the same kinds, in the same
    places, and import the same. They answer the same about imports and files;
  * `Graph.SameContent`: two graphs that differ at most in what is registered. They
    answer the same about aliases and single nodes too;
  * `Workspace.Sheds`: nodes of some contexts leave the table and nothing else
    happens. Bringing an unregistered subtree up to date is that;
  * `Graph.Conceals`: a file is out of the table (`Workspace.conceals_unregister`).
-/
import ScopeGraph.Proofs.ContextTree
import ScopeGraph.Proofs.MemoFree

namespace ScopeGraph

/-! ## 1. Graphs in which files import the same -/

/-- What is to be known of a context to walk from file to file, and to tell in which
    file and in what kind of context something is. -/
def Context.setting (data : Context) : Bool × ContextKind × Option ContextId × List Import :=
  (data.isTop, data.kind, data.parent, data.imports)

namespace Graph

/-- The view of the settings of all contexts, and of the limits. -/
def View.setting : View (Bool × ContextKind × Option ContextId × List Import) Unit
    (Store .context (Bool × ContextKind × Option ContextId × List Import) × Limits) where
  context := Context.setting
  declaration _ := ()
  shown contexts _ limits _ := (contexts, limits)

/-- **Two graphs whose contexts are of the same kinds, in the same places, and import
    the same.** -/
abbrev SameSetting : Graph → Graph → Prop := View.setting.Same

namespace SameSetting

variable {g g' : Graph} (h : SameSetting g g')

include h

theorem limits : g'.limits = g.limits := congrArg Prod.snd h

theorem capacity : g'.contexts.capacity = g.contexts.capacity := by
  have hcapacity := congrArg (·.1.capacity) h
  exact (Store.capacity_map _ _).symm.trans (hcapacity.trans (Store.capacity_map _ _))

/-- A context is in neither graph, or in both with the same setting. -/
theorem context_cases (c : ContextId) : g.context? c = none ∧ g'.context? c = none ∨
    ∃ data data', g.context? c = some data ∧ g'.context? c = some data' ∧
      data'.isTop = data.isTop ∧ data'.kind = data.kind ∧ data'.parent = data.parent ∧
      data'.imports = data.imports := by
  have hc : (g'.context? c).map Context.setting = (g.context? c).map Context.setting :=
    Store.get?_of_map_eq (congrArg Prod.fst h) c
  cases hd' : g'.context? c with
  | none =>
    rw [hd'] at hc
    exact .inl ⟨Option.map_eq_none_iff.mp hc.symm, rfl⟩
  | some data' =>
    obtain ⟨data, hdata, hsame⟩ := exists_of_map_eq hc hd'
    unfold Context.setting at hsame
    simp only [Prod.mk.injEq] at hsame
    obtain ⟨htop, hkind, hparent, himports⟩ := hsame
    exact .inr ⟨data, data', hdata, rfl, htop.symm, hkind.symm, hparent.symm, himports.symm⟩

theorem hasContext (c : ContextId) : g'.hasContext c = g.hasContext c := by
  show (g'.context? c).isSome = (g.context? c).isSome
  rcases h.context_cases c with ⟨hc, hc'⟩ | ⟨_, _, hc, hc', _⟩
  · rw [hc, hc']
  · rw [hc, hc']
    rfl

theorem top? (c : ContextId) : g'.top? c = g.top? c := by
  unfold Graph.top?
  rcases h.context_cases c with ⟨hc, hc'⟩ | ⟨_, _, hc, hc', htop, _⟩
  · rw [hc, hc']
  · rw [hc, hc']
    dsimp only
    rw [htop]

theorem parent? (c : ContextId) : g'.parent? c = g.parent? c := by
  unfold Graph.parent?
  rcases h.context_cases c with ⟨hc, hc'⟩ | ⟨_, _, hc, hc', _, _, hparent, _⟩
  · rw [hc, hc']
  · rw [hc, hc']
    exact hparent

theorem isClass (c : ContextId) : g'.isClass c = g.isClass c := by
  unfold Graph.isClass
  rcases h.context_cases c with ⟨hc, hc'⟩ | ⟨_, _, hc, hc', _, hkind, _⟩
  · rw [hc, hc']
  · rw [hc, hc']
    dsimp only
    rw [hkind]

theorem lineage (c : ContextId) : g'.lineage c = g.lineage c := by
  have hwithin : ∀ n c, g'.lineageWithin n c = g.lineageWithin n c := by
    intro n
    induction n with
    | zero => exact fun _ => rfl
    | succ n ih =>
      intro c
      unfold lineageWithin
      rw [h.parent?]
      cases g.parent? c with
      | none => rfl
      | some p =>
        dsimp only
        rw [ih]
  unfold Graph.lineage chainBound
  rw [h.capacity, hwithin]

theorem topOf? (c : ContextId) : g'.topOf? c = g.topOf? c := by
  unfold Graph.topOf?
  rw [h.lineage, funext h.top?]

theorem firstHop (t : TopId) (inside : List TopId) (visit : TopId → Query Hop)
    (imports : List Import) : g'.firstHop t inside visit imports = g.firstHop t inside visit imports := by
  induction imports with
  | nil => rfl
  | cons i rest ih =>
    unfold Graph.firstHop
    rw [h.top?, h.hasContext, ih]

theorem reach (t : TopId) (n : Nat) : g'.reach t n = g.reach t n := by
  induction n with
  | zero => rfl
  | succ n ih =>
    funext inside s
    unfold Graph.reach
    rw [ih]
    unfold hopFrom
    rcases h.context_cases s.context with ⟨hc, hc'⟩ | ⟨_, _, hc, hc', _, _, _, himports⟩
    · rw [hc, hc']
    · rw [hc, hc']
      dsimp only
      rw [himports, h.firstHop]

theorem hopTowards (s t : TopId) : g'.hopTowards s t = g.hopTowards s t := by
  unfold Graph.hopTowards
  rw [h.reach, h.limits]

theorem importsTop (s t : TopId) : g'.importsTop s t = g.importsTop s t := by
  unfold Graph.importsTop
  rw [h.hopTowards]

end SameSetting

end Graph

/-! ## 2. Graphs that differ in what is registered -/

/-- A context without what registration says of it. -/
def Context.content (data : Context) : Context := { data with registered := false, key := none }

/-- A declaration without what registration says of it. -/
def Declaration.content (data : Declaration) : Declaration := { data with key := none }

namespace Graph

/-- A declaration is in neither of two graphs, or in both and the same but for
    registration. -/
theorem declaration_cases_of_content {g g' : Graph} {d : DeclId}
    (hd : (g'.declaration? d).map Declaration.content = (g.declaration? d).map Declaration.content) :
    g.declaration? d = none ∧ g'.declaration? d = none ∨
      ∃ data key, g.declaration? d = some data ∧
        g'.declaration? d = some { data with key := key } := by
  cases hd' : g'.declaration? d with
  | none =>
    rw [hd'] at hd
    exact .inl ⟨Option.map_eq_none_iff.mp hd.symm, rfl⟩
  | some data' =>
    obtain ⟨data, hdata, hsame⟩ := exists_of_map_eq hd hd'
    refine .inr ⟨data, data'.key, hdata, congrArg some ?_⟩
    exact (congrArg (fun x : Declaration => { x with key := data'.key }) hsame).symm

/-- The view of everything but what registration says. -/
def View.content : View Context Declaration
    (Store .context Context × Store .declaration Declaration × Limits) where
  context := Context.content
  declaration := Declaration.content
  shown contexts declarations limits _ := (contexts, declarations, limits)

/-- **Two graphs differ at most in what is registered.** -/
abbrev SameContent : Graph → Graph → Prop := View.content.Same

theorem View.overlooksRegistry_content : View.content.OverlooksRegistry where
  registered _ _ := rfl
  key _ _ := rfl
  declarationKey g d _ := .modifyDeclaration g d fun _ => rfl
  table _ _ _ _ _ := rfl

namespace SameContent

variable {g g' : Graph}

variable (h : SameContent g g')

include h

/-- A context is in neither graph, or in both and the same but for registration. -/
theorem context_cases (c : ContextId) : g.context? c = none ∧ g'.context? c = none ∨
    ∃ data registered key, g.context? c = some data ∧
      g'.context? c = some { data with registered := registered, key := key } := by
  have hc : (g'.context? c).map Context.content = (g.context? c).map Context.content :=
    Store.get?_of_map_eq (congrArg Prod.fst h) c
  cases hd' : g'.context? c with
  | none =>
    rw [hd'] at hc
    exact .inl ⟨Option.map_eq_none_iff.mp hc.symm, rfl⟩
  | some data' =>
    obtain ⟨data, hdata, hsame⟩ := exists_of_map_eq hc hd'
    refine .inr ⟨data, data'.registered, data'.key, hdata, congrArg some ?_⟩
    exact (congrArg (fun x : Context =>
      { x with registered := data'.registered, key := data'.key }) hsame).symm

theorem map_declaration? (d : DeclId) :
    (g'.declaration? d).map Declaration.content = (g.declaration? d).map Declaration.content :=
  Store.get?_of_map_eq (congrArg (·.2.1) h) d

theorem declaration_cases (d : DeclId) : g.declaration? d = none ∧ g'.declaration? d = none ∨
    ∃ data key, g.declaration? d = some data ∧ g'.declaration? d = some { data with key := key } :=
  declaration_cases_of_content (h.map_declaration? d)

theorem setting : SameSetting g g' := by
  have hcontexts :=
    Store.map_eq_of_map_eq (v := Context.content) Context.setting (congrArg Prod.fst h)
  have hlimits : g'.limits = g.limits := congrArg (·.2.2) h
  exact Prod.ext hcontexts hlimits

theorem resolveAlias (d : DeclId) : g'.resolveAlias d = g.resolveAlias d := by
  have hfollow : ∀ n d, g'.followAlias n d = g.followAlias n d := by
    intro n
    induction n with
    | zero =>
      intro d
      unfold followAlias
      rcases h.declaration_cases d with ⟨hd, hd'⟩ | ⟨data, _, hd, hd'⟩ <;> rw [hd, hd']
    | succ n ih =>
      intro d
      unfold followAlias
      rcases h.declaration_cases d with ⟨hd, hd'⟩ | ⟨data, _, hd, hd'⟩
      · rw [hd, hd']
      · rw [hd, hd']
        dsimp only
        split <;> first | rfl | exact ih _
  unfold Graph.resolveAlias
  rw [h.setting.limits, hfollow]

theorem aliasOf? (d : DeclId) : g'.aliasOf? d = g.aliasOf? d := by
  unfold Graph.aliasOf?
  rcases h.declaration_cases d with ⟨hd, hd'⟩ | ⟨data, _, hd, hd'⟩
  · rw [hd, hd']
  · rw [hd, hd']
    rfl

end SameContent

end Graph

/-! ## 3. Lists without some of their items -/

/-- A list without some of its items, all of which have a property; the others stay in
    their order. -/
def Without {α : Type} (H : α → Prop) (l l' : List α) : Prop :=
  ∃ p : α → Bool, l' = l.filter p ∧ ∀ a, p a = false → H a

namespace Without

variable {α κ : Type} {H : α → Prop} {l l' l'' : List α}

theorem refl (H : α → Prop) (l : List α) : Without H l l :=
  ⟨fun _ => true, (List.filter_eq_self.mpr fun _ _ => rfl).symm, fun _ h => by cases h⟩

theorem trans (h₁ : Without H l l') (h₂ : Without H l' l'') : Without H l l'' := by
  obtain ⟨p, rfl, hp⟩ := h₁
  obtain ⟨q, rfl, hq⟩ := h₂
  refine ⟨fun a => q a && p a, List.filter_filter, fun a ha => ?_⟩
  rcases Bool.and_eq_false_iff.mp ha with h | h
  · exact hq a h
  · exact hp a h

theorem mono {K : α → Prop} (h : Without H l l') (hK : ∀ a, H a → K a) : Without K l l' := by
  obtain ⟨p, hl, hp⟩ := h
  exact ⟨p, hl, fun a ha => hK a (hp a ha)⟩

/-- If nothing with the property is left, all that has it is missing. -/
theorem eq_filter {q : α → Bool} (h : Without (fun a => q a = false) l l')
    (hleft : ∀ a ∈ l', q a = true) : l' = l.filter q := by
  obtain ⟨p, rfl, hp⟩ := h
  refine List.filter_congr fun a ha => ?_
  cases hpa : p a with
  | false => exact (hp a hpa).symm
  | true => exact (hleft a (List.mem_filter.mpr ⟨ha, hpa⟩)).symm

variable [DecidableEq α] [DecidableEq κ]

theorem erase (hnodup : l.Nodup) {a : α} (ha : H a) : Without H l (l.erase a) := by
  refine ⟨(· != a), hnodup.erase_eq_filter a, fun x hx => ?_⟩
  have hxa : x = a := by simpa using hx
  rwa [hxa]

/-- A value that loses its key is missing under it, and nothing else changes. -/
theorem rekey {m : Multimap κ α} {key : α → Option κ} (hm : m.Indexes key) {a : α} (ha : H a)
    (old : Option κ) (k : κ) : Without H (m.find k) ((m.rekey a old none).find k) := by
  cases old with
  | none => exact .refl H _
  | some k₀ =>
    show Without H (m.find k) ((m.erase k₀ a).find k)
    by_cases hk : k = k₀
    · rw [hk, Multimap.find_erase_self hm.keys]
      exact erase (hm.nodup k₀) ha
    · rw [Multimap.find_erase_of_ne m a hk]
      exact .refl H _

end Without

/-! ## 4. Nodes that leave the table -/

namespace Workspace

open ScopeGraph.Graph Outline

/-- **Nodes of some contexts leave the table**, and but for what the nodes say of it
    nothing else happens. -/
structure Sheds (S : ContextId → Prop) (w w' : Workspace) : Prop where
  settles : Settles w w'
  content : SameContent w.graph w'.graph
  contexts : ∀ k, Without S (w.graph.table.findContexts k) (w'.graph.table.findContexts k)
  declarations : ∀ k, Without (fun d => ∃ f x, w.graph.outline.declaration d = some f ∧
      f.context = some x ∧ S x)
    (w.graph.table.findDeclarations k) (w'.graph.table.findDeclarations k)

theorem View.overlooksRegistry_content : (ofGraph .content).OverlooksRegistry :=
  ⟨Graph.View.overlooksRegistry_content, fun _ _ _ => rfl⟩

theorem sameContent_syncContextKey (w : Workspace) (c : ContextId) :
    SameContent w.graph (w.syncContextKey c).graph :=
  (View.Same.syncContextKey View.overlooksRegistry_content w c).graph

theorem sameContent_syncDeclaration (w : Workspace) (d : DeclId) :
    SameContent w.graph (w.syncDeclaration d).graph :=
  (View.Same.syncDeclaration View.overlooksRegistry_content w d).graph

theorem sameContent_markSubtree (w : Workspace) (c : ContextId) (registered : Bool) :
    SameContent w.graph (w.markSubtree c registered).graph :=
  (View.Same.markSubtree View.overlooksRegistry_content w c registered).graph

theorem sameContent_registerSubtree (w : Workspace) (c : ContextId) (registered : Bool) :
    SameContent w.graph (w.registerSubtree c registered).graph :=
  (View.Same.registerSubtree View.overlooksRegistry_content w c registered).graph

variable {S : ContextId → Prop} {w : Workspace}

theorem Sheds.refl (S : ContextId → Prop) (w : Workspace) : Sheds S w w :=
  ⟨.refl w, .refl _, fun _ => .refl _ _, fun _ => .refl _ _⟩

theorem Sheds.trans {w₁ w₂ w₃ : Workspace} (h₁ : Sheds S w₁ w₂) (h₂ : Sheds S w₂ w₃) :
    Sheds S w₁ w₃ where
  settles := h₁.settles.trans h₂.settles
  content := h₁.content.trans h₂.content
  contexts k := (h₁.contexts k).trans (h₂.contexts k)
  declarations k := by
    have h := h₂.declarations k
    rw [h₁.settles.shape.outline] at h
    exact (h₁.declarations k).trans h

/-- What holds as long as the shape is the same may be used in every step. -/
theorem Sheds.foldl {α : Type} {f : Workspace → α → Workspace} {as : List α}
    (hw : w.graph.Entered)
    (hf : ∀ w', SameShape w.graph w'.graph → w'.graph.Entered → ∀ a ∈ as, Sheds S w' (f w' a)) :
    Sheds S w (as.foldl f w) := by
  induction as generalizing w with
  | nil => exact .refl S w
  | cons a rest ih =>
    have hfirst := hf w (.refl _) hw a List.mem_cons_self
    refine hfirst.trans (ih (hfirst.settles.entered hw) fun w' hshape hw' x hx => ?_)
    exact hf w' (hfirst.settles.shape.trans hshape) hw' x (List.mem_cons_of_mem a hx)

theorem sheds_syncContextKey (hw : w.graph.Entered) {c : ContextId} (hc : S c)
    (hkey : w.graph.contextKey? c = none) : Sheds S w (w.syncContextKey c) := by
  have hsettles := settles_syncContextKey w c
  have hcontent := sameContent_syncContextKey w c
  unfold syncContextKey at hsettles hcontent ⊢
  rw [hkey] at hsettles hcontent ⊢
  cases hdata : w.graph.context? c with
  | none => exact .refl S w
  | some data =>
    rw [hdata] at hsettles hcontent
    dsimp only at hsettles hcontent ⊢
    split
    · exact .refl S w
    · next hne =>
      rw [if_neg hne] at hsettles hcontent
      refine ⟨hsettles, hcontent, fun k => ?_, fun k => ?_⟩
      · rw [graph_changeTableBy, apply_keyMoves_context]
        exact .rekey hw.contexts hc data.key k
      · rw [graph_changeTableBy, apply_keyMoves_context]
        exact .refl _ _

theorem sheds_syncDeclaration (hw : w.graph.Entered) {d : DeclId} {f : DeclForm} {x : ContextId}
    (hd : w.graph.outline.declaration d = some f) (hx : f.context = some x) (hS : S x)
    (hkey : w.graph.declarationKey? d = none) : Sheds S w (w.syncDeclaration d) := by
  have hsettles := settles_syncDeclaration w d
  have hcontent := sameContent_syncDeclaration w d
  unfold syncDeclaration at hsettles hcontent ⊢
  rw [hkey] at hsettles hcontent ⊢
  cases hdata : w.graph.declaration? d with
  | none => exact .refl S w
  | some data =>
    rw [hdata] at hsettles hcontent
    dsimp only at hsettles hcontent ⊢
    split
    · exact .refl S w
    · next hne =>
      rw [if_neg hne] at hsettles hcontent
      refine ⟨hsettles, hcontent, fun k => ?_, fun k => ?_⟩
      · rw [graph_changeTableBy, apply_keyMoves_declaration]
        exact .refl _ _
      · rw [graph_changeTableBy, apply_keyMoves_declaration]
        exact .rekey hw.declarations ⟨f, x, hd, hx, hS⟩ data.key k

/-- A context that is not registered belongs nowhere into the table, and neither do
    its declarations. -/
theorem sheds_syncContext (hw : w.graph.Entered) (hh : w.graph.outline.Holds) {c : ContextId}
    (hc : S c) (hoff : ∀ f, w.graph.outline.context c = some f → f.registered = false) :
    Sheds S w (w.syncContext c) := by
  have hkey : w.graph.contextKey? c = none := by
    rw [contextKey?_eq]
    cases hf : w.graph.outline.context c with
    | none => rfl
    | some f => simp [hoff f hf]
  have hregisters : w.graph.registers c = false := by
    rw [registers_eq]
    cases hf : w.graph.outline.context c with
    | none => rfl
    | some f => simp [hoff f hf]
  have hfirst := sheds_syncContextKey hw hc hkey
  refine hfirst.trans (.foldl (hfirst.settles.entered hw) fun w' hshape hw' d hd => ?_)
  have hsame : SameShape w.graph w'.graph := hfirst.settles.shape.trans hshape
  obtain ⟨fc, hfc, hmem⟩ := mem_localDeclarations_iff.mp hd
  obtain ⟨f, hf, hcontext⟩ := hh.own hfc hmem
  refine sheds_syncDeclaration hw' (f := f) (x := c) (by rw [hsame.outline]; exact hf) hcontext hc ?_
  rw [hsame.declarationKey?, declarationKey?_eq, hf, Option.bind_some, hcontext, Option.any_some,
    hregisters]
  rfl

/-- **A subtree that is not registered leaves the table.** -/
theorem sheds_syncSubtree (hw : w.graph.Consistent) {c : ContextId}
    (hoff : ∀ x f, w.graph.outline.Below c x → w.graph.outline.context x = some f →
      f.registered = false) :
    Sheds (w.graph.outline.Below c) w (w.syncSubtree c) := by
  refine .foldl hw.entered fun w' hshape hw' x hx => ?_
  have hbelow := (mem_subtreeBackwards_iff hw.tree.acyclic).mp hx
  refine sheds_syncContext hw' (by rw [hshape.outline]; exact hw.holds) hbelow fun f hf => ?_
  rw [hshape.outline] at hf
  exact hoff x f hbelow hf

end Workspace

/-! ## 5. A file out of the table -/

namespace Graph

open Outline

/-- The top of the file that a declaration is in. -/
def topOfDeclaration? (g : Graph) (d : DeclId) : Option TopId :=
  (g.declaration? d).bind fun data => data.context.bind g.topOf?

/-- **A file is out of the table**: the table is as before without what is in the file,
    and the graph differs in nothing else. -/
structure Conceals (u : TopId) (g g' : Graph) : Prop where
  content : SameContent g g'
  declarations : ∀ k, g'.table.findDeclarations k =
    (g.table.findDeclarations k).filter fun d => g.topOfDeclaration? d ≠ some u
  contexts : ∀ k, g'.table.findContexts k =
    (g.table.findContexts k).filter fun c => g.topOf? c ≠ some u

variable {g : Graph} {u : TopId} {x : ContextId}

/-- What is below the top of a file is in the file. -/
theorem topOf?_of_below (ht : g.outline.Tree) (hr : g.outline.Rooted) (hu : g.IsTop u)
    (hx : g.outline.Below u.context x) : g.topOf? x = some u := by
  induction hx with
  | refl =>
    rw [topOf?_unfold ht, hu]
    rfl
  | @tail y z _ hchild ih =>
    have hparent := ht.parent?_of_child hchild
    have hnone : g.top? z = none := by
      cases htop : g.top? z with
      | none => rfl
      | some t =>
        obtain ⟨hz, hIsTop⟩ := isTop_of_top? htop
        obtain ⟨data, hdata, hfile⟩ := isTop_iff.mp hIsTop
        rw [hz] at hdata
        have hform : g.outline.context z = some data.form := outline_context.mpr ⟨data, hdata, rfl⟩
        rw [parent?_of_context hform, (hr z _ hform hfile).1] at hparent
        cases hparent
    rw [topOf?_unfold ht, hnone, parent?_eq, hparent]
    exact ih

/-- What is registered in a file is below its top. -/
theorem below_of_topOf? (hf : g.outline.Flagged) (ht : g.outline.Tree) {f : Form}
    (hx : g.outline.context x = some f) (hreg : f.registered = true) (hu : g.topOf? x = some u) :
    g.outline.Below u.context x := by
  obtain ⟨y, hy, htop⟩ := List.exists_of_findSome?_eq_some hu
  obtain ⟨l, hl⟩ := ht.line x
  rw [lineage_eq hl] at hy
  rw [(isTop_of_top? htop).1]
  exact hf.below ht hl hx hreg hy

theorem isRegistered_eq (g : Graph) (t : TopId) :
    g.isRegistered t = (g.outline.context t.context).any (fun f => f.isTop && f.registered) := by
  unfold isRegistered
  rw [outline_context_eq]
  cases g.context? t.context <;> rfl

end Graph

namespace Workspace

open ScopeGraph.Graph Outline

variable {w : Workspace} {u : TopId}

theorem outline_registerSubtree_eq (w : Workspace) (c : ContextId) (registered : Bool) :
    (w.registerSubtree c registered).graph.outline =
      w.graph.outline.mark (w.graph.subtree c) registered := by
  unfold registerSubtree
  rw [(settles_syncSubtree _ _).shape.outline, outline_markSubtree]

/-- What is registered after a file is unregistered was so before, and is not below
    its top. -/
theorem registered_unregister (ht : w.graph.outline.Tree) {x : ContextId} {f : Form} :
    (w.registerSubtree u.context false).graph.outline.context x = some f ∧ f.registered = true ↔
      w.graph.outline.context x = some f ∧ f.registered = true ∧
        ¬ w.graph.outline.Below u.context x := by
  rw [outline_registerSubtree_eq, ← mem_subtree_iff ht.acyclic]
  by_cases hx : x ∈ w.graph.subtree u.context
  · refine iff_of_false ?_ fun h => h.2.2 hx
    rintro ⟨hf, hreg⟩
    obtain ⟨f₀, _, rfl⟩ := of_mark hf
    rw [if_pos hx] at hreg
    cases hreg
  · rw [mark_of_not_mem hx]
    simp [hx]

/-- Nothing that is registered afterwards is in the file. -/
theorem topOf?_ne_of_registered (hw : w.graph.Orderly) {x : ContextId} {data : Context}
    (hdata : (w.registerSubtree u.context false).graph.context? x = some data)
    (hreg : data.registered = true) : w.graph.topOf? x ≠ some u := by
  intro hx
  obtain ⟨hf, hreg', hout⟩ := (registered_unregister hw.tree).mp
    ⟨outline_context.mpr ⟨data, hdata, rfl⟩, hreg⟩
  exact hout (below_of_topOf? hw.flagged hw.tree hf hreg' hx)

/-- **A file that is unregistered is out of the table.** -/
theorem conceals_registerSubtree (hw : w.graph.Orderly) (hu : w.graph.IsTop u)
    (hw' : (w.registerSubtree u.context false).graph.Orderly) :
    Conceals u w.graph (w.registerSubtree u.context false).graph := by
  let w₁ := w.markSubtree u.context false
  have hmark : SameContent w.graph w₁.graph := sameContent_markSubtree w u.context false
  have htable : w₁.graph.table = w.graph.table := (w.sameEntries_markSubtree u.context false).table
  have hbranches : SameBranches w₁.graph.outline w.graph.outline := by
    intro x
    rw [outline_markSubtree]
    exact (map_mark Form.branch (fun _ _ => rfl) _ _ _ x).symm
  have htop : ∀ x, w₁.graph.outline.Below u.context x → w.graph.topOf? x = some u :=
    fun x hx => topOf?_of_below hw.tree hw.rooted hu (hbranches.below hx)
  have hsheds : Sheds (w₁.graph.outline.Below u.context) w₁ (w.registerSubtree u.context false) := by
    refine sheds_syncSubtree (w.consistent_markSubtree _ _ hw.toConsistent) fun x f hx hf => ?_
    rw [outline_markSubtree] at hf
    obtain ⟨f₀, _, rfl⟩ := of_mark hf
    rw [if_pos ((mem_subtree_iff hw.tree.acyclic).mpr (hbranches.below hx))]
    rfl
  have hcontent : SameContent w.graph (w.registerSubtree u.context false).graph :=
    hmark.trans hsheds.content
  refine ⟨hcontent, fun k => ?_, fun k => ?_⟩
  · refine Without.eq_filter ?_ fun d hd => ?_
    · rw [← htable]
      refine (hsheds.declarations k).mono ?_
      rintro d ⟨f, x, hd, hx, hbelow⟩
      rw [outline_markSubtree] at hd
      obtain ⟨data, hdata, rfl⟩ := outline_declaration.mp hd
      have hcontext : data.context = some x := hx
      simp [topOfDeclaration?, hdata, hcontext, htop x hbelow]
    · obtain ⟨data, x, holder, hdata, hx, hholder, hreg, _⟩ := (hw'.mem_findDeclarations k d).mp hd
      have hne := topOf?_ne_of_registered hw hholder hreg
      rcases hcontent.declaration_cases d with ⟨_, hnone⟩ | ⟨data₀, key, hd₀, hd'⟩
      · rw [hdata] at hnone
        cases hnone
      · cases hdata.symm.trans hd'
        have hcontext : data₀.context = some x := hx
        simpa [topOfDeclaration?, hd₀, hcontext] using hne
  · refine Without.eq_filter ?_ fun c hc => ?_
    · rw [← htable]
      refine (hsheds.contexts k).mono fun x hx => ?_
      simp [htop x hx]
    · obtain ⟨data, hdata, _, hreg, _⟩ := (hw'.mem_findContexts k c).mp hc
      simpa using topOf?_ne_of_registered hw hdata hreg

theorem after_registerTop (hu : w.graph.IsTop u) (registered : Bool) :
    (Edit.needFile u >>= fun _ => Edit.update (·.registerSubtree u.context registered)).after w =
      w.registerSubtree u.context registered := by
  obtain ⟨data, hdata, hfile⟩ := isTop_iff.mp hu
  obtain ⟨r, hr⟩ := Option.isSome_iff_exists.mp hfile
  unfold Edit.after
  rw [Edit.needFile_bind, hdata]
  simp only [hr]
  rfl

theorem unregister_apply (hu : w.graph.IsTop u) :
    (Change.unregister u).apply w = w.registerSubtree u.context false :=
  after_registerTop hu false

theorem conceals_unregister (hw : w.graph.Orderly) (hu : w.graph.IsTop u) :
    Conceals u w.graph ((Change.unregister u).apply w).graph := by
  have hw' : ((Change.unregister u).apply w).graph.Orderly :=
    (Edit.upholds_registerTop u false w hw).orderly
  rw [unregister_apply hu] at hw' ⊢
  exact conceals_registerSubtree hw hu hw'

/-- Another file that is registered stays so. -/
theorem isRegistered_unregister (hw : w.graph.Orderly) (hu : w.graph.IsTop u) {a : TopId}
    (hne : a ≠ u) (ha : w.graph.isRegistered a = true) :
    ((Change.unregister u).apply w).graph.isRegistered a = true := by
  rw [unregister_apply hu]
  obtain ⟨data, hdata, hfile, hreg⟩ := isRegistered_iff.mp ha
  have hform : w.graph.outline.context a.context = some data.form :=
    outline_context.mpr ⟨data, hdata, rfl⟩
  have hout : ¬ w.graph.outline.Below u.context a.context := by
    intro hbelow
    have htop := topOf?_of_below hw.tree hw.rooted hu hbelow
    have hself : w.graph.top? a.context = some a := isTop_iff.mpr ⟨data, hdata, hfile⟩
    rw [topOf?_unfold hw.tree, hself] at htop
    exact hne (Option.some.inj htop)
  obtain ⟨hform', _⟩ := (registered_unregister hw.tree).mpr ⟨hform, hreg, hout⟩
  obtain ⟨data', hdata', hsame⟩ := outline_context.mp hform'
  refine isRegistered_iff.mpr ⟨data', hdata', ?_, ?_⟩
  · exact (congrArg Form.isTop hsame).trans hfile
  · exact (congrArg Form.registered hsame).trans hreg

end Workspace

end ScopeGraph
