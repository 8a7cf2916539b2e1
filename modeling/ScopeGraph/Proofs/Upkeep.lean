/-
  File:      ScopeGraph/Proofs/Upkeep.lean
  Subject:   Tree, lists and indices are kept up by every edit.

  A graph is KEMPT if its tree and table are consistent, its lists stand in source
  order, and its indices show the names of all declarations, each from where its
  declaration is held. Beside these names there may be a SURPLUS: names that some
  context has though no declaration is there to give them. No edit makes a
  surplus but the deletion of an anonymous context (see
  Tending.lean); so what is said here is said for every surplus.

  * `Outline.Records`: the starts of the names of all declarations. One
    declaration changes one start (`Records.split`);
  * `Graph.Kempt`, and one lemma for each change of declarations and contexts.
-/
import ScopeGraph.Proofs.Registration
import ScopeGraph.Proofs.SourceOrder

namespace ScopeGraph

/-! ## 1. Where the names of declarations start -/

namespace Outline

/-- Where the name of a declaration starts, if anything holds it. -/
def start? (o : Outline) (d : DeclId) : Option Origin :=
  (o.declaration d).bind fun f => f.context.map fun c => (c, f.name, d)

/-- The same as a multiset. -/
def origin (o : Outline) (d : DeclId) : Multiset Origin := (o.start? d).toList

/-- **The starts of the names of all declarations**, each once. -/
structure Records (o : Outline) (P : Multiset Origin) : Prop where
  nodup : P.Nodup
  mem : ∀ x : Origin, x ∈ P ↔ o.start? x.2.2 = some x

variable {o o' : Outline} {P P' : Multiset Origin} {d : DeclId}

theorem mem_origin {x : Origin} : x ∈ o.origin d ↔ o.start? d = some x := by
  unfold origin
  rw [Multiset.mem_coe, Option.mem_toList]

theorem eq_of_start? {x : Origin} (h : o.start? d = some x) : x.2.2 = d := by
  obtain ⟨f, _, hf⟩ := Option.bind_eq_some_iff.mp h
  obtain ⟨c, _, rfl⟩ := Option.map_eq_some_iff.mp hf
  rfl

theorem nodup_origin : (o.origin d).Nodup := by
  unfold origin
  cases o.start? d with
  | none => exact Multiset.nodup_zero
  | some x => exact Multiset.nodup_singleton x

theorem Records.unique (h : o.Records P) (h' : o.Records P') : P = P' :=
  (Multiset.Nodup.ext h.nodup h'.nodup).mpr fun x => (h.mem x).trans (h'.mem x).symm

theorem Records.congr (h : o.Records P) (hd : o'.declaration = o.declaration) : o'.Records P := by
  refine ⟨h.nodup, fun x => ?_⟩
  unfold start?
  rw [hd]
  exact h.mem x

/-- The starts of one declaration and of all others. -/
theorem records_add (hnodup : P.Nodup)
    (hmem : ∀ x : Origin, x ∈ P ↔ x.2.2 ≠ d ∧ o.start? x.2.2 = some x) :
    o.Records (o.origin d + P) := by
  refine ⟨Multiset.nodup_add.mpr ⟨nodup_origin, hnodup, ?_⟩, fun x => ?_⟩
  · refine Multiset.disjoint_left.mpr fun {x} hx hP => ?_
    exact ((hmem x).mp hP).1 (eq_of_start? (mem_origin.mp hx))
  · rw [Multiset.mem_add, mem_origin, hmem]
    constructor
    · rintro (hx | ⟨_, hx⟩)
      · rw [eq_of_start? hx]
        exact hx
      · exact hx
    · intro hx
      by_cases hd : x.2.2 = d
      · rw [hd] at hx
        exact .inl hx
      · exact .inr ⟨hd, hx⟩

/-- **What happens to one declaration happens to its start**, and the starts of
    the others stay. -/
theorem Records.split (h : o.Records P) (d : DeclId) : ∃ P₀, P = o.origin d + P₀ ∧
    ∀ o' : Outline, (∀ x, x ≠ d → o'.declaration x = o.declaration x) →
      o'.Records (o'.origin d + P₀) := by
  let P₀ := P.filter fun x => x.2.2 ≠ d
  have hothers : ∀ x : Origin, x ∈ P₀ ↔ x.2.2 ≠ d ∧ o.start? x.2.2 = some x := by
    intro x
    rw [Multiset.mem_filter, h.mem, and_comm]
  refine ⟨P₀, h.unique (records_add (h.nodup.filter _) hothers), fun o' ho' => ?_⟩
  refine records_add (h.nodup.filter _) fun x => (hothers x).trans (and_congr_right fun hx => ?_)
  unfold start?
  rw [ho' _ hx]

end Outline

namespace Graph

variable {g g' : Graph} {d : DeclId}

theorem origin_of_declaration? {data : Declaration} (h : g.declaration? d = some data) :
    g.outline.origin d = (data.context.map fun c => (c, data.name, d)).toList := by
  unfold Outline.origin Outline.start?
  rw [outline_declaration_eq, h]
  rfl

theorem origin_eq_zero (h : ∀ data, g.declaration? d = some data → data.context = none) :
    g.outline.origin d = 0 := by
  unfold Outline.origin Outline.start?
  rw [outline_declaration_eq]
  cases hd : g.declaration? d with
  | none => rfl
  | some data =>
    have hnone : (data.context.map fun c => (c, data.name, d)) = none := by
      rw [h data hd]
      rfl
    exact congrArg (fun x : Option Origin => (x.toList : Multiset Origin)) hnone

theorem origin_of_context {data : Declaration} {c : ContextId} (h : g.declaration? d = some data)
    (hc : data.context = some c) : g.outline.origin d = {(c, data.name, d)} := by
  rw [origin_of_declaration? h, hc]
  rfl

/-! ## 2. Kempt graphs -/

/-- **Tree and table are consistent, lists stand in order, and indices show the
    names of all declarations** and a surplus. -/
structure Kempt (g : Graph) (s : Multiset Origin) : Prop where
  consistent : g.Consistent
  sorted : g.Sorted
  shown : ∃ P, g.outline.Records P ∧ g.Shown (P + s)

namespace SameStock

variable (h : SameStock g g')

include h

theorem sorted (hs : g.Sorted) : g'.Sorted :=
  hs.congr (h.context_part fun v => (v.1, v.2.2.2.1, v.2.2.2.2.ordered)) (h.declaration_part Prod.fst)

theorem shown {O : Multiset Origin} (hs : g.Shown O) : g'.Shown O :=
  hs.of_locals (feeds_congr (h.context_part fun v => (v.2.2.1, v.2.1)))
    (h.context_part fun v => v.2.2.2.2)

theorem declaration : g'.outline.declaration = g.outline.declaration :=
  funext (h.declaration_part Prod.snd)

theorem descends : Outline.Descends g.outline g'.outline := by
  have hparent : ∀ x, g'.outline.parent? x = g.outline.parent? x := by
    intro x
    have hx := congrArg Option.join (h.context_part (fun v => v.2.1) x)
    unfold Outline.parent?
    rw [outline_context_eq, outline_context_eq]
    cases hg : g.context? x <;> cases hg' : g'.context? x <;> rw [hg, hg'] at hx <;> exact hx
  refine ⟨fun x hx => ?_, fun x p hp => .inl ((hparent x).symm.trans hp)⟩
  have hsome := congrArg Option.isSome (h.context_part id x)
  rw [outline_context_eq, Option.isSome_map] at hx ⊢
  rw [Option.isSome_map, Option.isSome_map, hx] at hsome
  exact hsome.symm

end SameStock

namespace Kempt

variable {s : Multiset Origin}

/-- Nothing of the stock changes. -/
theorem of_sameStock (h : g.Kempt s) (hstock : SameStock g g') (hg' : g'.Consistent) :
    g'.Kempt s := by
  obtain ⟨P, hP, hshown⟩ := h.shown
  exact ⟨hg', hstock.sorted h.sorted, P, hP.congr hstock.declaration, hstock.shown hshown⟩

/-- The contexts change, the declarations stay. -/
theorem of_shown (h : g.Kempt s) (hg' : g'.Consistent) (hsorted : g'.Sorted)
    (hd : g'.outline.declaration = g.outline.declaration) (hshown : ∀ O, g.Shown O → g'.Shown O) :
    g'.Kempt s := by
  obtain ⟨P, hP, hs⟩ := h.shown
  exact ⟨hg', hsorted, P, hP.congr hd, hshown _ hs⟩

/-- **One declaration changes**, and its start with it. -/
theorem change (h : g.Kempt s) (d : DeclId) (hg' : g'.Consistent) (hsorted : g'.Sorted)
    (hothers : ∀ x, x ≠ d → g'.outline.declaration x = g.outline.declaration x)
    (hshown : ∀ O, g.Shown (g.outline.origin d + O) → g'.Shown (g'.outline.origin d + O)) :
    g'.Kempt s := by
  obtain ⟨P, hP, hs⟩ := h.shown
  obtain ⟨P₀, rfl, hnew⟩ := hP.split d
  refine ⟨hg', hsorted, _, hnew _ hothers, ?_⟩
  rw [Multiset.add_assoc] at hs ⊢
  exact hshown _ hs

end Kempt

/-! ## 3. Declarations -/

theorem Shown.modifyDeclaration {O : Multiset Origin} (h : g.Shown O) (d : DeclId)
    (f : Declaration → Declaration) : (g.modifyDeclaration d f).Shown O :=
  h.congr rfl fun ha => ⟨_, ha, rfl⟩

theorem Sorted.withdraw (h : g.Sorted) (d : DeclId) (holder : Option ContextId) :
    (g.withdraw d holder).Sorted := by
  cases holder with
  | none => exact h
  | some c => exact h.detach c d

section Withdraw

variable {data : Declaration} (hd : g.declaration? d = some data)

include hd

theorem declaration?_withdraw : (g.withdraw d data.context).declaration? d = some data := by
  unfold declaration?
  rw [declarations_withdraw]
  exact hd

theorem Shown.withdrawn {O : Multiset Origin} (ht : g.outline.Tree)
    (h : g.Shown (g.outline.origin d + O)) : (g.withdraw d data.context).Shown O := by
  cases hc : data.context with
  | none =>
    have hzero : g.outline.origin d = 0 := by
      refine origin_eq_zero fun data' hd' => ?_
      cases hd.symm.trans hd'
      exact hc
    rw [hzero, Multiset.zero_add] at h
    exact h
  | some c =>
    rw [origin_of_context hd hc, Multiset.singleton_add] at h
    exact h.detach ht hd

/-- A declaration that was withdrawn is in no list. -/
theorem not_mem_withdrawn (hh : g.outline.Holds) (x : ContextId) :
    d ∉ (g.withdraw d data.context).localDeclarations x := by
  have hform : g.outline.declaration d = some data.form := outline_declaration.mpr ⟨data, hd, rfl⟩
  intro hmem
  obtain ⟨f, hf, hown⟩ := mem_localDeclarations_iff.mp hmem
  rw [outline_withdraw hd] at hf
  obtain ⟨fd, hfd, hx⟩ := (hh.withdraw hform).own hf hown
  cases (Outline.withdraw_self hform).symm.trans hfd
  cases hx

end Withdraw

namespace Kempt

variable {s : Multiset Origin} {c : ContextId} {data : Declaration} (h : g.Kempt s)

include h

theorem move {target : Context} (hc : g.context? c = some target)
    (hd : g.declaration? d = some data) : (g.move c d data.context).Kempt s := by
  have htouches := touches_move h.consistent.holds hc hd
  have hd₁ := declaration?_withdraw hd
  have htree : Outline.SameTree g.outline (g.withdraw d data.context).outline := by
    rw [outline_withdraw hd]
    exact Outline.sameTree_withdraw g.outline d data.context
  have horigin : (g.move c d data.context).outline.origin d = {(c, data.name, d)} := by
    have hmoved : (g.move c d data.context).declaration? d =
        some { data with context := some c } := by
      unfold Graph.move
      rw [declaration?_modifyDeclaration, if_pos rfl]
      unfold declaration? at hd₁ ⊢
      rw [declarations_attach, hd₁]
      rfl
    have hstart := origin_of_context hmoved rfl
    exact hstart
  refine h.change d (htouches.consistent h.consistent) ?_ htouches.others fun O hO => ?_
  · exact ((h.sorted.withdraw d data.context).attach c d).modifyDeclaration fun _ => rfl
  · rw [horigin, Multiset.singleton_add]
    exact ((hO.withdrawn hd h.consistent.tree).attach (htree.tree h.consistent.tree) hd₁ c).modifyDeclaration d _

theorem drop (hd : g.declaration? d = some data) (hc : data.context = some c) :
    (g.drop c d).Kempt s := by
  have htouches := touches_drop h.consistent.holds hd hc
  have horigin : (g.drop c d).outline.origin d = 0 := by
    refine origin_eq_zero fun data' hd' => ?_
    unfold Graph.drop at hd'
    rw [declaration?_modifyDeclaration, if_pos rfl] at hd'
    obtain ⟨_, _, rfl⟩ := Option.map_eq_some_iff.mp hd'
    rfl
  refine h.change d (htouches.consistent h.consistent) ?_ htouches.others fun O hO => ?_
  · exact (h.sorted.detach c d).modifyDeclaration fun _ => rfl
  · rw [origin_of_context hd hc, Multiset.singleton_add] at hO
    rw [horigin, Multiset.zero_add]
    exact (hO.detach h.consistent.tree hd).modifyDeclaration d _

theorem rename (hd : g.declaration? d = some data) (name : Ident) :
    (g.rename d data name).Kempt s := by
  have htouches := touches_rename h.consistent.holds d data name
  have hrenamed : (g.rename d data name).declaration? d = some { data with name := name } := by
    have hsame : (data.context.elim g fun c =>
        (g.recallNames c [(data.name, d)]).spreadNames c [(name, d)]).declarations =
          g.declarations := by
      cases data.context with
      | none => rfl
      | some c => exact (declarations_modifyAll _ _).trans (declarations_modifyAll _ _)
    unfold Graph.rename
    rw [declaration?_modifyDeclaration, if_pos rfl]
    unfold declaration? at hd ⊢
    rw [hsame, hd]
    rfl
  refine h.change d (htouches.consistent h.consistent) ?_ htouches.others fun O hO => ?_
  · unfold Graph.rename
    refine Sorted.modifyDeclaration ?_ fun _ => rfl
    cases data.context with
    | none => exact h.sorted
    | some c => exact (h.sorted.recallNames c _).spreadNames c _
  · rw [origin_of_declaration? hd] at hO
    rw [origin_of_declaration? hrenamed]
    unfold Graph.rename
    refine Shown.modifyDeclaration ?_ d _
    cases hc : data.context with
    | none =>
      rw [hc] at hO
      exact hO
    | some c =>
      rw [hc] at hO
      refine Shown.spreadName (hO.recallName h.consistent.tree) ?_ c
      rw [outline_recallNames]
      exact h.consistent.tree

/-- A new declaration is in no list and in no index. -/
theorem insertDeclaration (made : Declaration) (hcontext : made.context = none)
    (hkey : made.key = none) : (g.insertDeclaration made).Kempt s := by
  have htidy := h.consistent.entered.tidy
  have hdead := declaration?_nextDeclaration made htidy
  have hget := declaration?_insertDeclaration made htidy
  have hnew : ∀ x, ∀ y ∈ g.localDeclarations x, y ≠ g.nextDeclaration made := by
    rintro x _ hy rfl
    obtain ⟨f, hf, hown⟩ := mem_localDeclarations_iff.mp hy
    obtain ⟨fd, hfd, _⟩ := h.consistent.holds.own hf hown
    obtain ⟨data, hdata, _⟩ := outline_declaration.mp hfd
    rw [hdead] at hdata
    cases hdata
  refine h.change (g.nextDeclaration made)
    (h.consistent.insertDeclaration made hcontext hkey) ?_ (fun x hx => ?_) fun O hO => ?_
  · refine h.sorted.thin (fun _ => .refl _) (fun _ => .refl _) (fun _ _ _ => rfl) fun x y hy => ?_
    unfold startOfDeclaration
    rw [hget, if_neg (hnew x y hy)]
  · rw [outline_declaration_eq, hget, if_neg hx]
    rfl
  · have hbefore : g.outline.origin (g.nextDeclaration made) = 0 := by
      refine origin_eq_zero fun data hdata => ?_
      rw [hdead] at hdata
      cases hdata
    have hafter : (g.insertDeclaration made).outline.origin (g.nextDeclaration made) = 0 := by
      refine origin_eq_zero fun data hdata => ?_
      rw [hget, if_pos rfl] at hdata
      cases hdata
      exact hcontext
    rw [hbefore] at hO
    rw [hafter]
    exact hO.congr rfl fun ha => ⟨_, ha, rfl⟩

theorem discard (hd : g.declaration? d = some data) (hg' : g.Discards g' d data.context) :
    g'.Kempt s := by
  have hform : g.outline.declaration d = some data.form := outline_declaration.mpr ⟨data, hd, rfl⟩
  have hafter : g'.outline.origin d = 0 := by
    refine origin_eq_zero fun data' hd' => ?_
    rw [hg'.gone] at hd'
    cases hd'
  refine h.change d (hg'.consistent h.consistent hform rfl) ?_
    (fun x hx => hg'.declaration_of_ne hx) fun O hO => ?_
  · refine hg'.stock.sorted (Sorted.eraseDeclaration (h.sorted.withdraw d data.context) ?_)
    exact not_mem_withdrawn hd h.consistent.holds
  · rw [hafter, Multiset.zero_add]
    refine hg'.stock.shown ((hO.withdrawn hd h.consistent.tree).congr rfl ?_)
    exact fun ha => ⟨_, ha, rfl⟩

end Kempt

/-! ## 4. Contexts -/

namespace Kempt

open Outline

variable {s : Multiset Origin} {c p : ContextId} (h : g.Kempt s)

include h

theorem unlinkChild (hc : g.outline.parent? c = some p) : (g.unlinkChild p c).Kempt s := by
  have houtline := outline_unlink g p c
  have hgraft : Regrafts g.outline (g.unlinkChild p c).outline c := by
    rw [houtline]
    exact regrafts_unlink hc
  have ht : (g.unlinkChild p c).outline.Tree := by
    rw [houtline]
    exact h.consistent.tree.unlink hc
  exact h.of_shown (h.consistent.regraft hgraft (.unlinkChild g p c) ht) (h.sorted.unlinkChild p c)
    hgraft.declaration fun O hO => hO.unlinkChild h.consistent.tree hc

theorem loosen {data : Context} (hc : g.context? c = some data) : (g.loosen c data).Kempt s := by
  have hparent : g.outline.parent? c = data.parent :=
    parent?_of_context (outline_context.mpr ⟨data, hc, rfl⟩)
  unfold Graph.loosen
  cases hp : data.parent with
  | none => exact h
  | some p =>
    show (if data.anonymous then g else g.unlinkChild p c).Kempt s
    split
    · exact h
    · exact h.unlinkChild (hparent.trans hp)

/-- **A new context has no names**, and nothing leads to it: whatever surplus
    started there before does not count any more. -/
theorem insertContext (made : Context) (htidy : g.contexts.Tidy) (ha : g.Anchored)
    (hf : g.outline.Fresh made.form) (hkey : made.key = none) (hlocals : made.locals = {})
    (hoff : made.propagates = false) :
    (g.insertContext made).Kempt (s.filter (·.1 ≠ g.nextContext made)) := by
  let n := g.nextContext made
  obtain ⟨P, hP, hshown⟩ := h.shown
  have hdead := context?_nextContext made htidy
  have hget := context?_insertContext made htidy
  have hchildren : made.children = [] := (Multiset.coe_eq_zero _).mp hf.children
  have hends : ∀ y, ¬ g.Feeds n y := by
    rintro y ⟨data, hdata, _⟩
    rw [hdead] at hdata
    cases hdata
  have hfeeds : (g.insertContext made).Feeds = g.Feeds := by
    refine Detached.feeds_eq (c := n) ⟨?_, fun x y hx => ?_⟩ hends
    · rintro y ⟨data, hdata, hon, _⟩
      rw [hget, if_pos rfl] at hdata
      cases hdata
      rw [hoff] at hon
      cases hon
    · unfold Feeds
      rw [hget, if_neg hx]
  have hP' : ∀ x ∈ P, x.1 ≠ n := by
    rintro ⟨x, m, d⟩ hx rfl
    obtain ⟨f, hfd, he⟩ := Option.bind_eq_some_iff.mp ((hP.mem _).mp hx)
    obtain ⟨y, hy, he⟩ := Option.map_eq_some_iff.mp he
    cases he
    obtain ⟨fy, hfy, _⟩ := h.consistent.holds.holder hfd hy
    rw [outline_nextContext made htidy] at hfy
    cases hfy
  have hO : ∀ x ∈ P + s.filter (·.1 ≠ n), x.1 ≠ n := by
    intro x hx
    rcases Multiset.mem_add.mp hx with hx | hx
    · exact hP' x hx
    · exact (Multiset.mem_filter.mp hx).2
  refine ⟨h.consistent.insertContext made htidy ha hf hkey, ?_, P, hP.congr rfl, ?_, ?_⟩
  · refine h.sorted.thin (fun x => ?_) (fun x => ?_) (fun x y hy => ?_) fun _ _ _ => rfl
    · unfold Graph.children
      rw [hget]
      split
      · rw [Option.map_some, Option.getD_some, hchildren]
        exact List.nil_sublist _
      · exact .refl _
    · unfold localDeclarations
      rw [hget]
      split
      · rw [Option.map_some, Option.getD_some, hlocals]
        exact List.nil_sublist _
      · exact .refl _
    · have hne : y ≠ n := by
        rintro rfl
        unfold Graph.children at hy
        rw [hget] at hy
        split at hy
        · rw [Option.map_some, Option.getD_some, hchildren] at hy
          exact List.not_mem_nil hy
        · obtain ⟨f, hfx, hmem⟩ := mem_children_iff.mp hy
          obtain ⟨fy, hfy, _⟩ := h.consistent.tree.child hfx hmem
          rw [outline_nextContext made htidy] at hfy
          cases hfy
      unfold startOfContext
      rw [hget, if_neg hne]
  · intro a data ha
    rw [hget] at ha
    split at ha
    · cases ha
      rw [hlocals]
      exact List.nodup_nil
    · exact hshown.keys ha
  · intro a data hdata
    rw [hfeeds]
    rw [hget] at hdata
    split at hdata
    · next ha' =>
      -- nothing comes to the new context
      cases hdata
      rw [hlocals]
      refine (Multiset.eq_zero_of_forall_notMem fun m hm => ?_).symm
      obtain ⟨x, hx, hreach⟩ := mem_reaching.mp hm
      rcases Relation.ReflTransGen.cases_tail hreach with e | ⟨y, _, hy⟩
      · exact hO _ hx (e.symm.trans ha')
      · rw [ha'] at hy
        exact ha.ne_nextContext made htidy y hy.parent?
    · next ha' =>
      rw [hshown.names hdata]
      have hfilter : P + s.filter (·.1 ≠ n) = (P + s).filter (·.1 ≠ n) := by
        rw [Multiset.filter_add, Multiset.filter_eq_self.mpr hP']
      rw [hfilter]
      refine (reaching_filter fun x _ hreach => ?_).symm
      rintro e
      rw [e] at hreach
      rcases Relation.ReflTransGen.cases_head hreach with e | ⟨y, hy, _⟩
      · exact ha' e.symm
      · exact hends y hy

end Kempt

theorem detached_eraseContext (g : Graph) (c : ContextId) :
    Detached g { g with contexts := g.contexts.erase c } c := by
  refine ⟨?_, fun x y hx => ?_⟩
  · rintro y ⟨data, hdata, _⟩
    rw [context?_eraseContext, if_pos rfl] at hdata
    cases hdata
  · unfold Feeds
    rw [context?_eraseContext, if_neg hx]

end Graph

/-- The names that a context leaves behind when it goes: an anonymous context does
    not take back what it passed on. -/
def Context.shed (data : Context) : Multiset Origin :=
  if data.anonymous && data.propagates then data.parent.elim 0 (starting · data.locals.names) else 0

theorem Context.shed_of_named {data : Context} (h : data.anonymous = false) : data.shed = 0 := by
  unfold shed
  rw [h]
  rfl

namespace Graph

open Outline

variable {g : Graph} {c q : ContextId} {data : Context} (hc : g.context? c = some data)

include hc

/-- Only an anonymous context passes names on when it is about to go. -/
theorem shed_of_feeds (h : (g.loosen c data).Feeds c q) :
    g.loosen c data = g ∧ data.shed = starting q data.locals.names := by
  have hform : g.outline.context c = some data.form := outline_context.mpr ⟨data, hc, rfl⟩
  have hparent := h.parent?
  unfold loosen at h hparent ⊢
  cases hp : data.parent with
  | none =>
    rw [hp] at hparent
    have hroot : g.outline.parent? c = none := (parent?_of_context hform).trans hp
    cases hroot.symm.trans hparent
  | some p =>
    rw [hp] at h hparent
    cases hanon : data.anonymous with
    | false =>
      have hcut : (g.unlinkChild p c).outline.parent? c = none := by
        rw [outline_unlink, parent?_unlink ((parent?_of_context hform).trans hp), if_pos rfl]
      rw [hanon] at hparent
      cases hcut.symm.trans hparent
    | true =>
      rw [hanon] at h
      obtain ⟨data', hdata', hon, hq⟩ : g.Feeds c q := h
      cases hc.symm.trans hdata'
      cases hp.symm.trans hq
      refine ⟨rfl, ?_⟩
      unfold Context.shed
      rw [hanon, hon, hp]
      rfl

theorem shed_eq_zero (h : ∀ q, ¬ (g.loosen c data).Feeds c q) : data.shed = 0 := by
  cases hanon : data.anonymous with
  | false => exact Context.shed_of_named hanon
  | true =>
    unfold Context.shed
    cases hp : data.parent with
    | none => exact ite_self _
    | some p =>
      cases hon : data.propagates with
      | false => rw [Bool.and_false]; rfl
      | true =>
        refine absurd ⟨data, ?_, hon, hp⟩ (h p)
        unfold loosen
        rw [hp, hanon]
        exact hc

end Graph

namespace Workspace

open ScopeGraph.Graph Outline

variable {w : Workspace} {s : Multiset Origin} {p c : ContextId}

theorem kempt_grafted (h : w.graph.Kempt s) {parent child : Context}
    (hp : w.graph.context? p = some parent) (hc : w.graph.context? c = some child)
    (hanon : child.anonymous = false) (hfree : w.graph.isAtOrAbove c p = false) :
    ((whenSome child.parent (fun q w => w.onGraph (·.unlinkChild q c)) w).onGraph
      (·.linkChild p c)).graph.Kempt s := by
  let w₁ := whenSome child.parent (fun q w => w.onGraph (·.unlinkChild q c)) w
  have hform : w.graph.outline.context c = some child.form := outline_context.mpr ⟨child, hc, rfl⟩
  have h₁ : w₁.graph.Kempt s := by
    show (whenSome child.parent _ w).graph.Kempt s
    cases hq : child.parent with
    | none => exact h
    | some q => exact h.unlinkChild ((parent?_of_context hform).trans hq)
  obtain ⟨hgraft₁, _, _, hcut⟩ := uprooted h.consistent.tree hc
  obtain ⟨hgraft₂, hentries, ht₂, _⟩ := grafted h.consistent.tree hp hc hanon hfree
  obtain ⟨fc, hfc, _⟩ := hgraft₁.context' hform
  obtain ⟨data₁, hdata₁, rfl⟩ := outline_context.mp hfc
  have hroot : data₁.parent = none := (parent?_of_context hfc).symm.trans hcut
  refine h₁.of_shown (h.consistent.regraft hgraft₂ hentries ht₂) (h₁.sorted.linkChild p c)
    (hgraft₂.declaration.trans hgraft₁.declaration.symm) fun O hO => ?_
  exact hO.linkChild hdata₁ hroot ht₂

/-- **A context goes.** What an anonymous context passed on stays behind as a
    surplus. -/
theorem kempt_release {data : Context} (h : w.graph.Kempt s) (hbare : w.Bare c data) :
    (w.release c data).graph.Kempt (s + data.shed) := by
  obtain ⟨hconsistent, _, _⟩ := released h.consistent hbare
  obtain ⟨_, _, _, _, hfree⟩ := loosened h.consistent hbare.context
  have h₁ := h.loosen hbare.context
  let g₁ := w.graph.loosen c data
  rw [graph_release] at hconsistent ⊢
  have hdetached := detached_eraseContext g₁ c
  have hback : ∀ {a data'}, ({ g₁ with contexts := g₁.contexts.erase c } : Graph).context? a =
      some data' → ∃ data, g₁.context? a = some data ∧ data'.locals.index = data.locals.index := by
    intro a data' ha
    rw [context?_eraseContext] at ha
    split at ha
    · cases ha
    · exact ⟨data', ha, rfl⟩
  obtain ⟨P, hP, hshown⟩ := h₁.shown
  refine ⟨hconsistent, h₁.sorted.eraseContext fun x hx => hfree x (mem_children_iff.mp hx), P,
    hP.congr rfl, ?_⟩
  by_cases hends : ∀ q, ¬ g₁.Feeds c q
  · rw [shed_eq_zero hbare.context hends, Multiset.add_zero]
    exact hshown.congr (hdetached.feeds_eq hends) hback
  · obtain ⟨q, hq⟩ := not_forall_not.mp hends
    obtain ⟨hsame, hshed⟩ := shed_of_feeds hbare.context hq
    have hc : g₁.context? c = some data := by
      show (w.graph.loosen c data).context? c = some data
      rw [hsame]
      exact hbare.context
    rw [hshed, ← Multiset.add_assoc]
    exact hshown.lose (hdetached.joins h₁.consistent.tree hq) hc hback

end Workspace

end ScopeGraph
