/-
  File:      ScopeGraph/Proofs/NameFlow.lean
  Subject:   How names come into the indices of contexts.

  A name starts in the context that holds its declaration, and goes up from
  context to context as long as they propagate (`Graph.Feeds`). What an index
  should hold is said by where names START: under a multiset of starts, a context
  gets the name of every start that leads to it (`reaching`), as often as it is
  there.

  * `reaching_join`: one more edge takes to where it leads what came to where it
    begins. This is the one fact about paths: sharing names with a parent,
    withdrawing them, and losing a context on the way are cases of it;
  * `Graph.Shown`: all indices hold what the starts say. Spreading names adds
    starts, recalling names takes them away (`Shown.spread`, `Shown.takeBack`), and
    an edge that comes or goes with its names changes no start (`Shown.join`,
    `Shown.cut`).
-/
import ScopeGraph.Proofs.TableEntries

namespace ScopeGraph

/-! ## 1. The names in an index -/

namespace Multimap

variable {κ α : Type} [DecidableEq κ]

theorem pairs_insert (m : Multimap κ α) (k : κ) (a : α) :
    (m.insert k a).pairs.Perm ((k, a) :: m.pairs) := by
  obtain ⟨es⟩ := m
  unfold pairs insert
  dsimp only
  induction es with
  | nil => exact .refl _
  | cons e rest ih =>
    obtain ⟨k', vs⟩ := e
    unfold insertIn
    split
    · next hk =>
      subst hk
      simp only [List.flatMap_cons, List.map_append, List.append_assoc]
      exact List.perm_middle
    · simp only [List.flatMap_cons]
      exact (ih.append_left _).trans List.perm_middle

variable [DecidableEq α]

/-- Where each key stands once, a pair stands as often as the value under the
    key. -/
theorem count_pairs {m : Multimap κ α} (h : m.keys.Nodup) (k : κ) (a : α) :
    (m.pairs : Multiset (κ × α)).count (k, a) = (m.find k).count a := by
  obtain ⟨es⟩ := m
  unfold keys at h
  unfold pairs find
  dsimp only at *
  induction es with
  | nil => rfl
  | cons e rest ih =>
    obtain ⟨k', vs⟩ := e
    rw [List.map_cons, List.nodup_cons] at h
    rw [List.flatMap_cons, ← Multiset.coe_add, Multiset.count_add, ih h.2, valuesIn]
    by_cases hk : k' = k
    · subst hk
      rw [if_pos rfl, valuesIn_of_not_mem h.1, List.count_nil, Nat.add_zero, ← Multiset.map_coe,
        ← Multiset.coe_count]
      exact Multiset.count_map_eq_count' (Prod.mk k') vs (Prod.mk_right_injective k') a
    · rw [if_neg hk, Multiset.count_eq_zero.mpr, Nat.zero_add]
      intro hmem
      obtain ⟨v, _, hv⟩ := List.mem_map.mp hmem
      exact hk (congrArg Prod.fst hv)

theorem mem_pairs {m : Multimap κ α} (h : m.keys.Nodup) {k : κ} {a : α} :
    (k, a) ∈ m.pairs ↔ a ∈ m.find k := by
  rw [← Multiset.mem_coe, ← Multiset.count_pos, ← List.count_pos_iff, count_pairs h]

/-- Where each key stands once, taking a value from a key takes one pair away. -/
theorem pairs_erase {m : Multimap κ α} (h : m.keys.Nodup) (k : κ) (a : α) :
    ((m.erase k a).pairs : Multiset (κ × α)) = (m.pairs : Multiset (κ × α)).erase (k, a) := by
  refine Multiset.ext.mpr fun ⟨k', a'⟩ => ?_
  rw [count_pairs (nodup_keys_erase h k a)]
  by_cases hk : k' = k
  · subst hk
    rw [find_erase_self h]
    by_cases ha : a' = a
    · rw [ha, Multiset.count_erase_self, count_pairs h, List.count_erase_self]
    · rw [Multiset.count_erase_of_ne fun e => ha (congrArg Prod.snd e), count_pairs h,
        List.count_erase_of_ne ha]
  · rw [find_erase_of_ne m a hk, Multiset.count_erase_of_ne fun e => hk (congrArg Prod.fst e),
      count_pairs h]

end Multimap

namespace Locals

/-- The names in the index, each as often as it is there. -/
def names (l : Locals) : Multiset (Ident × DeclId) := l.index.pairs

theorem keys_addNames {l : Locals} (h : l.index.keys.Nodup) (names : List (Ident × DeclId)) :
    (l.addNames names).index.keys.Nodup := by
  unfold addNames
  induction names generalizing l with
  | nil => exact h
  | cons n rest ih => exact ih (l := l.addName n.1 n.2) (Multimap.nodup_keys_insert h n.1 n.2)

theorem keys_dropNames {l : Locals} (h : l.index.keys.Nodup) (names : List (Ident × DeclId)) :
    (l.dropNames names).index.keys.Nodup := by
  unfold dropNames
  induction names generalizing l with
  | nil => exact h
  | cons n rest ih => exact ih (l := l.dropName n.1 n.2) (Multimap.nodup_keys_erase h n.1 n.2)

theorem names_addNames (l : Locals) (names : List (Ident × DeclId)) :
    (l.addNames names).names = l.names + (names : Multiset (Ident × DeclId)) := by
  unfold addNames
  induction names generalizing l with
  | nil => exact (Multiset.add_zero _).symm
  | cons n rest ih =>
    have hone : (l.addName n.1 n.2).names = n ::ₘ l.names :=
      Multiset.coe_eq_coe.mpr (Multimap.pairs_insert l.index n.1 n.2)
    rw [List.foldl_cons, ih, hone, ← Multiset.cons_coe, Multiset.add_cons, Multiset.cons_add]

theorem names_dropNames {l : Locals} (h : l.index.keys.Nodup) (names : List (Ident × DeclId)) :
    (l.dropNames names).names = l.names - (names : Multiset (Ident × DeclId)) := by
  unfold dropNames
  induction names generalizing l with
  | nil => exact (Multiset.sub_zero _).symm
  | cons n rest ih =>
    have hone : (l.dropName n.1 n.2).names = l.names.erase n := Multimap.pairs_erase h n.1 n.2
    rw [List.foldl_cons, ih (Multimap.nodup_keys_erase h n.1 n.2), hone, ← Multiset.cons_coe,
      Multiset.sub_cons]

end Locals

/-! ## 2. Where names come to -/

/-- A name, its declaration, and the context where it starts. -/
abbrev Origin := ContextId × Ident × DeclId

/-- Names that start in a context. -/
def starting (c : ContextId) (names : Multiset (Ident × DeclId)) : Multiset Origin :=
  names.map (Prod.mk c)

open Classical in
/-- The names that come to a context along a relation, by where they start. -/
noncomputable def reaching (R : ContextId → ContextId → Prop) (origins : Multiset Origin)
    (a : ContextId) : Multiset (Ident × DeclId) :=
  (origins.filter fun o => Relation.ReflTransGen R o.1 a).map Prod.snd

section Reaching

variable {R R' : ContextId → ContextId → Prop} {c p a : ContextId}

theorem reaching_add (O O' : Multiset Origin) (a : ContextId) :
    reaching R (O + O') a = reaching R O a + reaching R O' a := by
  classical
  unfold reaching
  rw [Multiset.filter_add, Multiset.map_add]

theorem reaching_starting (h : Relation.ReflTransGen R c a) (names : Multiset (Ident × DeclId)) :
    reaching R (starting c names) a = names := by
  classical
  unfold reaching starting
  rw [Multiset.filter_eq_self.mpr, Multiset.map_map]
  · exact Multiset.map_id names
  · intro o ho
    obtain ⟨n, _, rfl⟩ := Multiset.mem_map.mp ho
    exact h

theorem reaching_starting_of_not (h : ¬ Relation.ReflTransGen R c a)
    (names : Multiset (Ident × DeclId)) : reaching R (starting c names) a = 0 := by
  classical
  unfold reaching starting
  rw [Multiset.filter_eq_nil.mpr]
  · rfl
  · intro o ho
    obtain ⟨n, _, rfl⟩ := Multiset.mem_map.mp ho
    exact h

/-- Starts from where nothing comes to a context do not count there. -/
theorem reaching_filter {O : Multiset Origin} {q : Origin → Prop} [DecidablePred q]
    (h : ∀ x ∈ O, Relation.ReflTransGen R x.1 a → q x) :
    reaching R (O.filter q) a = reaching R O a := by
  classical
  unfold reaching
  rw [Multiset.filter_filter]
  congr 1
  exact Multiset.filter_congr fun x hx => and_iff_left_of_imp (h x hx)

theorem mem_reaching {O : Multiset Origin} {n : Ident × DeclId} :
    n ∈ reaching R O a ↔ ∃ x, (x, n) ∈ O ∧ Relation.ReflTransGen R x a := by
  classical
  unfold reaching
  rw [Multiset.mem_map]
  constructor
  · rintro ⟨⟨x, m⟩, ho, rfl⟩
    obtain ⟨hmem, hx⟩ := Multiset.mem_filter.mp ho
    exact ⟨x, hmem, hx⟩
  · rintro ⟨x, hmem, hx⟩
    exact ⟨(x, n), Multiset.mem_filter.mpr ⟨hmem, hx⟩, rfl⟩

/-- A relation, and the same with one more edge, from where there was none and
    back to where nothing leads. -/
structure Joins (R R' : ContextId → ContextId → Prop) (c p : ContextId) : Prop where
  step : ∀ x y, R' x y ↔ R x y ∨ x = c ∧ y = p
  unique : Relator.RightUnique R
  last : ∀ y, ¬ R c y
  away : ¬ Relation.ReflTransGen R p c

namespace Joins

variable (h : Joins R R' c p)

include h

/-- What the new edge leads to is what leads to it, before what it leads to. -/
theorem reaches {x : ContextId} : Relation.ReflTransGen R' x a ↔
    Relation.ReflTransGen R x a ∨ Relation.ReflTransGen R x c ∧ Relation.ReflTransGen R p a := by
  constructor
  · intro hx
    induction hx using Relation.ReflTransGen.head_induction_on with
    | refl => exact .inl .refl
    | @head x y hxy _ ih =>
      rcases (h.step x y).mp hxy with hxy | ⟨rfl, rfl⟩
      · exact ih.imp (.head hxy) fun ⟨hy, hp⟩ => ⟨.head hxy hy, hp⟩
      · exact .inr ⟨.refl, ih.elim id And.right⟩
  · have hmono : ∀ {x y}, Relation.ReflTransGen R x y → Relation.ReflTransGen R' x y :=
      fun hxy => Relation.ReflTransGen.mono (fun x y hstep => (h.step x y).mpr (.inl hstep)) _ _ hxy
    rintro (hx | ⟨hx, hp⟩)
    · exact hmono hx
    · exact (hmono hx).trans (.head ((h.step c p).mpr (.inr ⟨rfl, rfl⟩)) (hmono hp))

/-- What comes to the end of a path has no other way beyond it. -/
theorem exclusive {x : ContextId} (hx : Relation.ReflTransGen R x a)
    (hc : Relation.ReflTransGen R x c) : ¬ Relation.ReflTransGen R p a := by
  intro hp
  rcases Relation.ReflTransGen.total_of_right_unique h.unique hx hc with hac | hca
  · exact h.away (hp.trans hac)
  · rcases Relation.ReflTransGen.cases_head hca with rfl | ⟨y, hy, _⟩
    · exact h.away hp
    · exact h.last y hy

/-- **One more edge takes to where it leads what came to where it begins.** -/
theorem reaching_join (O : Multiset Origin) (a : ContextId) :
    reaching R' O a = reaching R O a + reaching R (starting p (reaching R O c)) a := by
  classical
  have hfilter : (O.filter fun o => Relation.ReflTransGen R' o.1 a) =
      (O.filter fun o => Relation.ReflTransGen R o.1 a) +
        O.filter fun o => Relation.ReflTransGen R o.1 c ∧ Relation.ReflTransGen R p a := by
    have hboth : (O.filter fun o => Relation.ReflTransGen R o.1 a ∧
        Relation.ReflTransGen R o.1 c ∧ Relation.ReflTransGen R p a) = 0 :=
      Multiset.filter_eq_nil.mpr fun o _ ⟨ho, hc, hp⟩ => h.exclusive ho hc hp
    rw [Multiset.filter_add_filter, hboth, Multiset.add_zero]
    exact Multiset.filter_congr fun o _ => h.reaches
  have hjoin : reaching R' O a = reaching R O a +
      (O.filter fun o => Relation.ReflTransGen R o.1 c ∧ Relation.ReflTransGen R p a).map
        Prod.snd := by
    unfold reaching
    rw [← Multiset.map_add, ← hfilter]
  rw [hjoin]
  congr 1
  by_cases hp : Relation.ReflTransGen R p a
  · rw [reaching_starting hp]
    unfold reaching
    congr 1
    exact Multiset.filter_congr fun o _ => and_iff_left hp
  · rw [reaching_starting_of_not hp, Multiset.filter_eq_nil.mpr fun o _ ho => hp ho.2]
    rfl

/-- What starts behind the edge does not come to it. -/
theorem reaching_behind (names : Multiset (Ident × DeclId)) (a : ContextId) :
    reaching R' (starting p names) a = reaching R (starting p names) a := by
  have hnone : reaching R (starting p names) c = 0 := reaching_starting_of_not h.away names
  have hzero : reaching R (starting p 0) a = 0 := rfl
  rw [h.reaching_join, hnone, hzero, Multiset.add_zero]

/-- What comes to where the edge begins does not come over it. -/
theorem reaching_begin (O : Multiset Origin) : reaching R' O c = reaching R O c := by
  rw [h.reaching_join, reaching_starting_of_not h.away, Multiset.add_zero]

end Joins

end Reaching

/-! ## 3. The edges of a graph -/

namespace Graph

/-- A context passes its names on to another one. -/
def Feeds (g : Graph) (x y : ContextId) : Prop :=
  ∃ data, g.context? x = some data ∧ data.propagates = true ∧ data.parent = some y

/-- The names of one context come to another one. -/
def Reaches (g : Graph) : ContextId → ContextId → Prop := Relation.ReflTransGen g.Feeds

variable {g g' : Graph} {c p : ContextId}

theorem Feeds.parent? (h : g.Feeds c p) : g.outline.parent? c = some p := by
  obtain ⟨data, hdata, _, hparent⟩ := h
  exact (Outline.parent?_of_context (outline_context.mpr ⟨data, hdata, rfl⟩)).trans hparent

theorem feeds_unique : Relator.RightUnique g.Feeds := by
  intro x y z hy hz
  exact Option.some.inj (hy.parent?.symm.trans hz.parent?)

/-- The edges depend on parents and on what propagates. -/
theorem feeds_congr (h : ∀ x, (g'.context? x).map (fun data => (data.propagates, data.parent)) =
      (g.context? x).map fun data => (data.propagates, data.parent)) : g'.Feeds = g.Feeds := by
  have himp : ∀ {g g' : Graph}, (∀ x, (g'.context? x).map (fun data => (data.propagates,
      data.parent)) = (g.context? x).map fun data => (data.propagates, data.parent)) →
      ∀ x y, g.Feeds x y → g'.Feeds x y := by
    rintro g g' h x y ⟨data, hdata, hpropagates, hparent⟩
    have hx := h x
    rw [hdata] at hx
    obtain ⟨data', hdata', he⟩ := Option.map_eq_some_iff.mp hx
    obtain ⟨hpropagates', hparent'⟩ := Prod.mk.inj he
    exact ⟨data', hdata', hpropagates'.trans hpropagates, hparent'.trans hparent⟩
  funext x y
  exact propext ⟨himp (fun x => (h x).symm) x y, himp h x y⟩

theorem feeds_modifyContext {f : Context → Context}
    (hpropagates : ∀ data, (f data).propagates = data.propagates)
    (hparent : ∀ data, (f data).parent = data.parent) : (g.modifyContext c f).Feeds = g.Feeds := by
  refine feeds_congr fun x => map_context?_modifyContext g c (fun data => ?_) x
  rw [hpropagates, hparent]

theorem feeds_modifyContext_of_ne {f : Context → Context} {x y : ContextId} (hx : x ≠ c) :
    (g.modifyContext c f).Feeds x y ↔ g.Feeds x y := by
  unfold Feeds
  rw [context?_modifyContext, if_neg hx]

theorem of_feeds_modifyContext {f : Context → Context} {y : ContextId}
    (h : (g.modifyContext c f).Feeds c y) : ∃ data, g.context? c = some data ∧
      (f data).propagates = true ∧ (f data).parent = some y := by
  obtain ⟨data', hdata', hflow⟩ := h
  rw [context?_modifyContext, if_pos rfl] at hdata'
  obtain ⟨data, hdata, rfl⟩ := Option.map_eq_some_iff.mp hdata'
  exact ⟨data, hdata, hflow⟩

theorem mem_line_of_reaches {x a : ContextId} (h : g.Reaches x a) {l : List ContextId}
    (hl : g.outline.Line x l) : a ∈ l := by
  induction h using Relation.ReflTransGen.head_induction_on generalizing l with
  | refl => exact hl.head
  | head hstep _ ih =>
    cases hl with
    | root hr =>
      rw [hstep.parent?] at hr
      cases hr
    | step hs hl =>
      cases hstep.parent?.symm.trans hs
      exact List.mem_cons_of_mem _ (ih hl)

theorem mem_propagationAlong {x a : ContextId} {l : List ContextId} (hl : g.outline.Line x l) :
    a ∈ g.propagationAlong l ↔ g.Reaches x a ∧ (g.context? a).isSome := by
  induction hl with
  | @root x hr =>
    have hend : ∀ y, ¬ g.Feeds x y := by
      intro y hy
      rw [hy.parent?] at hr
      cases hr
    have hself : g.Reaches x a ↔ a = x := by
      refine ⟨fun h => ?_, fun e => e ▸ .refl⟩
      rcases Relation.ReflTransGen.cases_head h with e | ⟨y, hy, _⟩
      · exact e.symm
      · exact absurd hy (hend y)
    rw [hself, propagationAlong]
    cases hx : g.context? x with
    | none =>
      refine ⟨fun h => absurd h List.not_mem_nil, fun ⟨e, hlive⟩ => ?_⟩
      rw [e, hx] at hlive
      cases hlive
    | some data =>
      have hnil : (if data.propagates then g.propagationAlong [] else []) = [] := by
        split <;> rfl
      dsimp only
      rw [hnil, List.mem_singleton]
      refine ⟨fun e => ⟨e, ?_⟩, And.left⟩
      rw [e, hx]
      rfl
  | @step x p l hs hl ih =>
    rw [propagationAlong]
    cases hx : g.context? x with
    | none =>
      rw [← parent?_eq, parent?, hx] at hs
      cases hs
    | some data =>
      have hparent : data.parent = some p := by
        rw [← parent?_eq, parent?, hx] at hs
        exact hs
      dsimp only
      rw [List.mem_cons]
      constructor
      · rintro (rfl | hmem)
        · exact ⟨.refl, by rw [hx]; rfl⟩
        · split at hmem
          · next hp =>
            obtain ⟨hreach, hlive⟩ := ih.mp hmem
            exact ⟨.head ⟨data, hx, hp, hparent⟩ hreach, hlive⟩
          · exact absurd hmem List.not_mem_nil
      · rintro ⟨hreach, hlive⟩
        rcases Relation.ReflTransGen.cases_head hreach with e | ⟨y, hy, hreach⟩
        · exact .inl e.symm
        · cases hy.parent?.symm.trans hs
          obtain ⟨data', hdata', hp, _⟩ := hy
          cases hx.symm.trans hdata'
          rw [if_pos hp]
          exact .inr (ih.mpr ⟨hreach, hlive⟩)

/-- **What a context propagates to** is what its names come to. -/
theorem mem_propagationChain (ht : g.outline.Tree) {x a : ContextId} :
    a ∈ g.propagationChain x ↔ g.Reaches x a ∧ (g.context? a).isSome := by
  obtain ⟨l, hl⟩ := ht.line x
  unfold propagationChain
  rw [lineage_eq hl]
  exact mem_propagationAlong hl

theorem propagationAlong_sublist (l : List ContextId) : (g.propagationAlong l).Sublist l := by
  induction l with
  | nil => exact .slnil
  | cons x rest ih =>
    rw [propagationAlong]
    split
    · split
      · exact .cons_cons x ih
      · exact .cons_cons x (List.nil_sublist rest)
    · exact List.nil_sublist _

theorem nodup_propagationChain (ht : g.outline.Tree) (x : ContextId) :
    (g.propagationChain x).Nodup := by
  obtain ⟨l, hl⟩ := ht.line x
  unfold propagationChain
  rw [lineage_eq hl]
  exact hl.nodup.sublist (propagationAlong_sublist l)

/-- One edge fewer. -/
theorem Feeds.joins (hcp : g.Feeds c p) (ht : g.outline.Tree)
    (h : ∀ x y, g'.Feeds x y ↔ g.Feeds x y ∧ x ≠ c) : Joins g'.Feeds g.Feeds c p where
  step x y := by
    constructor
    · intro hxy
      by_cases hx : x = c
      · subst hx
        exact .inr ⟨rfl, feeds_unique hxy hcp⟩
      · exact .inl ((h x y).mpr ⟨hxy, hx⟩)
    · rintro (hxy | ⟨rfl, rfl⟩)
      · exact ((h x y).mp hxy).1
      · exact hcp
  unique _ _ _ hy hz := feeds_unique ((h _ _).mp hy).1 ((h _ _).mp hz).1
  last y hy := ((h c y).mp hy).2 rfl
  away hpc := by
    obtain ⟨l, hl⟩ := ht.line p
    have hreach : g.Reaches p c :=
      Relation.ReflTransGen.mono (fun x y hxy => ((h x y).mp hxy).1) _ _ hpc
    have hnodup := (Outline.Line.step hcp.parent? hl).nodup
    exact (List.nodup_cons.mp hnodup).1 (mem_line_of_reaches hreach hl)

/-! ## 4. Indices that show what they should -/

/-- A context that is changed several times. -/
theorem context?_modifyAll_count (f : Locals → Locals) (cs : List ContextId) (x : ContextId) :
    (g.modifyAll f cs).context? x =
      (g.context? x).map fun data => { data with locals := f^[cs.count x] data.locals } := by
  unfold modifyAll
  induction cs generalizing g with
  | nil => exact Option.map_id'.symm
  | cons c rest ih =>
    rw [List.foldl_cons, ih, modifyLocals, context?_modifyContext]
    by_cases hx : x = c
    · subst hx
      rw [if_pos rfl, Option.map_map, List.count_cons_self]
      rfl
    · rw [if_neg hx, List.count_cons_of_ne (Ne.symm hx)]

theorem context?_modifyAll (f : Locals → Locals) {cs : List ContextId} (hcs : cs.Nodup)
    (x : ContextId) : (g.modifyAll f cs).context? x = if x ∈ cs then
      (g.context? x).map fun data => { data with locals := f data.locals } else g.context? x := by
  rw [context?_modifyAll_count, hcs.count]
  split
  · rfl
  · exact Option.map_id'

theorem feeds_spreadNames (c : ContextId) (names : List (Ident × DeclId)) :
    (g.spreadNames c names).Feeds = g.Feeds :=
  feeds_congr (map_context?_modifyAll (fun _ => rfl) _)

theorem feeds_recallNames (c : ContextId) (names : List (Ident × DeclId)) :
    (g.recallNames c names).Feeds = g.Feeds :=
  feeds_congr (map_context?_modifyAll (fun _ => rfl) _)

/-- What spreading names, or recalling them, does to one context. -/
theorem context?_modifyChain (ht : g.outline.Tree) {f : Locals → Locals} {a : ContextId}
    {data : Context} (ha : (g.modifyAll f (g.propagationChain c)).context? a = some data) :
    ∃ data₀, g.context? a = some data₀ ∧
      (g.Reaches c a ∧ data.locals = f data₀.locals ∨
        ¬ g.Reaches c a ∧ data.locals = data₀.locals) := by
  rw [context?_modifyAll f (nodup_propagationChain ht c)] at ha
  by_cases hreach : g.Reaches c a
  · split at ha
    · obtain ⟨data₀, hdata₀, rfl⟩ := Option.map_eq_some_iff.mp ha
      exact ⟨data₀, hdata₀, .inl ⟨hreach, rfl⟩⟩
    · next hnot =>
      refine absurd ((mem_propagationChain ht).mpr ⟨hreach, ?_⟩) hnot
      rw [ha]
      rfl
  · rw [if_neg fun hmem => hreach ((mem_propagationChain ht).mp hmem).1] at ha
    exact ⟨data, ha, .inr ⟨hreach, rfl⟩⟩

/-- **Every index holds the names of the starts that lead to it**, and each key
    once. -/
structure Shown (g : Graph) (O : Multiset Origin) : Prop where
  keys : ∀ {a data}, g.context? a = some data → data.locals.index.keys.Nodup
  names : ∀ {a data}, g.context? a = some data → data.locals.names = reaching g.Feeds O a

namespace Shown

variable {O : Multiset Origin}

/-- Other starts from which the same comes to all contexts that are there. -/
theorem of_reaching {O' : Multiset Origin} (h : g.Shown O)
    (hO : ∀ a data, g.context? a = some data → reaching g.Feeds O' a = reaching g.Feeds O a) :
    g.Shown O' := ⟨h.keys, fun ha => (h.names ha).trans (hO _ _ ha).symm⟩

/-- What is left shows the same if the edges are the same. -/
theorem congr (h : g.Shown O) (hfeeds : g'.Feeds = g.Feeds)
    (hindex : ∀ {a data'}, g'.context? a = some data' → ∃ data, g.context? a = some data ∧
      data'.locals.index = data.locals.index) : g'.Shown O where
  keys ha := by
    obtain ⟨data, hdata, hsame⟩ := hindex ha
    rw [hsame]
    exact h.keys hdata
  names ha := by
    obtain ⟨data, hdata, hsame⟩ := hindex ha
    rw [hfeeds, ← h.names hdata, Locals.names, hsame]
    rfl

theorem modifyContext (h : g.Shown O) (c : ContextId) {f : Context → Context}
    (hpropagates : ∀ data, (f data).propagates = data.propagates)
    (hparent : ∀ data, (f data).parent = data.parent)
    (hindex : ∀ data, (f data).locals.index = data.locals.index) :
    (g.modifyContext c f).Shown O := by
  refine h.congr (feeds_modifyContext hpropagates hparent) fun {a data'} ha => ?_
  have hsame := map_context?_modifyContext g c (v := (·.locals.index)) hindex a
  obtain ⟨data, hdata, he⟩ := exists_of_map_eq hsame ha
  exact ⟨data, hdata, he.symm⟩

theorem spread (h : g.Shown O) (ht : g.outline.Tree) (c : ContextId)
    (names : List (Ident × DeclId)) : (g.spreadNames c names).Shown (O + starting c names) where
  keys ha := by
    obtain ⟨data₀, hdata₀, ⟨_, he⟩ | ⟨_, he⟩⟩ := context?_modifyChain ht ha
    · rw [he]
      exact Locals.keys_addNames (h.keys hdata₀) names
    · rw [he]
      exact h.keys hdata₀
  names ha := by
    rw [feeds_spreadNames, reaching_add]
    obtain ⟨data₀, hdata₀, ⟨hreach, he⟩ | ⟨hreach, he⟩⟩ := context?_modifyChain ht ha
    · rw [he, Locals.names_addNames, h.names hdata₀, reaching_starting hreach]
    · rw [he, h.names hdata₀, reaching_starting_of_not hreach, Multiset.add_zero]

theorem takeBack (ht : g.outline.Tree) {c : ContextId} {names : List (Ident × DeclId)}
    (h : g.Shown (O + starting c names)) : (g.recallNames c names).Shown O where
  keys ha := by
    obtain ⟨data₀, hdata₀, ⟨_, he⟩ | ⟨_, he⟩⟩ := context?_modifyChain ht ha
    · rw [he]
      exact Locals.keys_dropNames (h.keys hdata₀) names
    · rw [he]
      exact h.keys hdata₀
  names ha := by
    rw [feeds_recallNames]
    obtain ⟨data₀, hdata₀, ⟨hreach, he⟩ | ⟨hreach, he⟩⟩ := context?_modifyChain ht ha
    · rw [he, Locals.names_dropNames (h.keys hdata₀), h.names hdata₀, reaching_add,
        reaching_starting hreach, Multiset.add_sub_cancel_right]
    · rw [he, h.names hdata₀, reaching_add, reaching_starting_of_not hreach, Multiset.add_zero]

/-- An edge comes, and takes the names along. -/
theorem join (h : g.Shown O) (hj : Joins g.Feeds g'.Feeds c p) (ht : g'.outline.Tree)
    {data : Context} (hc : g.context? c = some data)
    (hlocals : ∀ x, (g'.context? x).map (·.locals) = (g.context? x).map (·.locals)) :
    (g'.spreadNames p data.locals.index.pairs).Shown O := by
  have hback : ∀ {a data₁}, g'.context? a = some data₁ → ∃ data₀, g.context? a = some data₀ ∧
      data₁.locals = data₀.locals := by
    intro a data₁ ha
    obtain ⟨data₀, hdata₀, he⟩ := exists_of_map_eq (hlocals a) ha
    exact ⟨data₀, hdata₀, he.symm⟩
  refine ⟨fun ha => ?_, fun ha => ?_⟩
  · obtain ⟨data₁, hdata₁, hspread⟩ := context?_modifyChain ht ha
    obtain ⟨data₀, hdata₀, he⟩ := hback hdata₁
    rw [he] at hspread
    obtain ⟨_, he'⟩ | ⟨_, he'⟩ := hspread
    · rw [he']
      exact Locals.keys_addNames (h.keys hdata₀) _
    · rw [he']
      exact h.keys hdata₀
  · have hshared : reaching g.Feeds O c = data.locals.names := (h.names hc).symm
    rw [feeds_spreadNames, hj.reaching_join, hshared, ← hj.reaching_behind]
    obtain ⟨data₁, hdata₁, hspread⟩ := context?_modifyChain ht ha
    obtain ⟨data₀, hdata₀, he⟩ := hback hdata₁
    rw [he] at hspread
    obtain ⟨hreach, he'⟩ | ⟨hreach, he'⟩ := hspread
    · rw [he', Locals.names_addNames, h.names hdata₀, reaching_starting hreach]
      rfl
    · rw [he', h.names hdata₀, reaching_starting_of_not hreach, Multiset.add_zero]

/-- An edge goes, and its names are taken back. -/
theorem cut (h : g.Shown O) (hj : Joins g'.Feeds g.Feeds c p) (ht : g.outline.Tree)
    {data : Context} (hc : g.context? c = some data)
    (hlocals : ∀ x, (g'.context? x).map (·.locals) =
      ((g.recallNames p data.locals.index.pairs).context? x).map (·.locals)) : g'.Shown O := by
  have hback : ∀ {a data'}, g'.context? a = some data' → ∃ data₀, g.context? a = some data₀ ∧
      (g.Reaches p a ∧ data'.locals = data₀.locals.dropNames data.locals.index.pairs ∨
        ¬ g.Reaches p a ∧ data'.locals = data₀.locals) := by
    intro a data' ha
    obtain ⟨data₁, hdata₁, he⟩ := exists_of_map_eq (hlocals a) ha
    have he : data₁.locals = data'.locals := he
    rw [← he]
    exact context?_modifyChain ht hdata₁
  refine ⟨fun ha => ?_, fun ha => ?_⟩
  · obtain ⟨data₀, hdata₀, ⟨_, he⟩ | ⟨_, he⟩⟩ := hback ha
    · rw [he]
      exact Locals.keys_dropNames (h.keys hdata₀) _
    · rw [he]
      exact h.keys hdata₀
  · have hshared : reaching g'.Feeds O c = data.locals.names :=
      (hj.reaching_begin O).symm.trans (h.names hc).symm
    obtain ⟨data₀, hdata₀, ⟨hreach, he⟩ | ⟨hreach, he⟩⟩ := hback ha
    · have hback : reaching g'.Feeds (starting p data.locals.names) _ = data.locals.names :=
        (hj.reaching_behind _ _).symm.trans (reaching_starting hreach _)
      rw [he, Locals.names_dropNames (h.keys hdata₀), h.names hdata₀, hj.reaching_join, hshared, hback]
      exact Multiset.add_sub_cancel_right
    · have hback : reaching g'.Feeds (starting p data.locals.names) _ = 0 :=
        (hj.reaching_behind _ _).symm.trans (reaching_starting_of_not hreach _)
      rw [he, h.names hdata₀, hj.reaching_join, hshared, hback, Multiset.add_zero]

/-- An edge goes and its names stay: then it is as if they started behind it. -/
theorem lose (h : g.Shown O) (hj : Joins g'.Feeds g.Feeds c p) {data : Context}
    (hc : g.context? c = some data) (hindex : ∀ {a data'}, g'.context? a = some data' →
      ∃ data, g.context? a = some data ∧ data'.locals.index = data.locals.index) :
    g'.Shown (O + starting p data.locals.names) where
  keys ha := by
    obtain ⟨data₀, hdata₀, he⟩ := hindex ha
    rw [he]
    exact h.keys hdata₀
  names ha := by
    have hshared : reaching g'.Feeds O c = data.locals.names :=
      (hj.reaching_begin O).symm.trans (h.names hc).symm
    obtain ⟨data₀, hdata₀, he⟩ := hindex ha
    rw [Locals.names, he, reaching_add, ← hshared, ← hj.reaching_join]
    exact h.names hdata₀

end Shown

/-! ## 5. Names shared with a parent -/

theorem sharedNames_eq_some {names : List (Ident × DeclId)} (h : g.sharedNames c = some (p, names)) :
    ∃ data, g.context? c = some data ∧ g.Feeds c p ∧ names = data.locals.index.pairs := by
  unfold sharedNames at h
  cases hc : g.context? c with
  | none =>
    rw [hc] at h
    cases h
  | some data =>
    rw [hc] at h
    obtain ⟨hpropagates, h⟩ := Option.ite_none_right_eq_some.mp h
    obtain ⟨q, hparent, he⟩ := Option.map_eq_some_iff.mp h
    obtain ⟨rfl, rfl⟩ := Prod.mk.inj he
    exact ⟨data, rfl, ⟨data, hc, hpropagates, hparent⟩, rfl⟩

theorem sharedNames_eq_none (h : g.sharedNames c = none) (y : ContextId) : ¬ g.Feeds c y := by
  rintro ⟨data, hdata, hpropagates, hparent⟩
  unfold sharedNames at h
  rw [hdata] at h
  dsimp only at h
  rw [if_pos hpropagates, hparent] at h
  cases h

theorem feeds_withdrawFromParent (c : ContextId) : (g.withdrawFromParent c).Feeds = g.Feeds :=
  feeds_congr (map_context?_withdrawFromParent fun _ _ _ => rfl)

/-- The edges are the same but for one context, from which there are none in the
    one graph. -/
structure Detached (g g' : Graph) (c : ContextId) : Prop where
  last : ∀ y, ¬ g'.Feeds c y
  others : ∀ x y, x ≠ c → (g'.Feeds x y ↔ g.Feeds x y)

namespace Detached

variable (h : Detached g g' c)

include h

theorem step (x y : ContextId) : g'.Feeds x y ↔ g.Feeds x y ∧ x ≠ c := by
  by_cases hx : x = c
  · subst hx
    exact ⟨fun hy => absurd hy (h.last y), fun hy => absurd rfl hy.2⟩
  · rw [h.others x y hx, and_iff_left hx]

theorem joins (ht : g.outline.Tree) (hcp : g.Feeds c p) : Joins g'.Feeds g.Feeds c p :=
  hcp.joins ht h.step

theorem feeds_eq (hc : ∀ y, ¬ g.Feeds c y) : g'.Feeds = g.Feeds := by
  funext x y
  refine propext ((h.step x y).trans (and_iff_left_of_imp ?_))
  rintro hxy rfl
  exact hc y hxy

end Detached

namespace Shown

variable {O : Multiset Origin}

theorem of_locals (h : g.Shown O) (hfeeds : g'.Feeds = g.Feeds)
    (hlocals : ∀ x, (g'.context? x).map (·.locals) = (g.context? x).map (·.locals)) :
    g'.Shown O := by
  refine h.congr hfeeds fun {a data'} ha => ?_
  obtain ⟨data, hdata, he⟩ := exists_of_map_eq (hlocals a) ha
  exact ⟨data, hdata, congrArg Locals.index he.symm⟩

/-- **A context that gets another parent, or propagates now, gives it all its
    names.** -/
theorem share (h : g.Shown O) (hd : Detached g' g c) (ht : g'.outline.Tree)
    (hlocals : ∀ x, (g'.context? x).map (·.locals) = (g.context? x).map (·.locals)) :
    (g'.shareWithParent c).Shown O := by
  unfold shareWithParent
  cases hshared : g'.sharedNames c with
  | none => exact h.of_locals (hd.feeds_eq (sharedNames_eq_none hshared)).symm hlocals
  | some shared =>
    obtain ⟨p, names⟩ := shared
    obtain ⟨data', hdata', hcp, rfl⟩ := sharedNames_eq_some hshared
    obtain ⟨data, hdata, he⟩ := exists_of_map_eq (hlocals c) hdata'
    have he : data.locals = data'.locals := he
    dsimp only
    rw [← he]
    exact h.join (hd.joins ht hcp) ht hdata hlocals

/-- **A context that loses its parent, or propagates no more, takes all its names
    back.** -/
theorem withdraw (h : g.Shown O) (hd : Detached g g' c) (ht : g.outline.Tree)
    (hlocals : ∀ x, (g'.context? x).map (·.locals) =
      ((g.withdrawFromParent c).context? x).map (·.locals)) : g'.Shown O := by
  unfold withdrawFromParent at hlocals
  cases hshared : g.sharedNames c with
  | none =>
    rw [hshared] at hlocals
    exact h.of_locals (hd.feeds_eq (sharedNames_eq_none hshared)) hlocals
  | some shared =>
    obtain ⟨p, names⟩ := shared
    obtain ⟨data, hdata, hcp, rfl⟩ := sharedNames_eq_some hshared
    rw [hshared] at hlocals
    exact h.cut (hd.joins ht hcp) ht hdata hlocals

theorem linkChild (h : g.Shown O) {data : Context} (hc : g.context? c = some data)
    (hroot : data.parent = none) (ht : (g.linkChild p c).outline.Tree) :
    (g.linkChild p c).Shown O := by
  let f : Context → Context := fun data =>
    { data with children := insertByStart g.startOfContext c (g.startOfContext c) data.children }
  let g₁ := g.modifyContext p f
  let g₂ := g₁.modifyContext c ({ · with parent := some p })
  have hfeeds : g₁.Feeds = g.Feeds := feeds_modifyContext (fun _ => rfl) fun _ => rfl
  have hdetached : Detached g₂ g c := by
    refine ⟨?_, fun x y hx => ?_⟩
    · rintro y ⟨data', hdata', _, hparent⟩
      cases hc.symm.trans hdata'
      rw [hroot] at hparent
      cases hparent
    · rw [feeds_modifyContext_of_ne hx, hfeeds]
  have hlocals : ∀ x, (g₂.context? x).map (·.locals) = (g.context? x).map (·.locals) := by
    intro x
    rw [map_context?_modifyContext g₁ c, map_context?_modifyContext g p]
    · exact fun _ => rfl
    · exact fun _ => rfl
  have ht₂ : g₂.outline.Tree := by
    rw [← outline_shareWithParent (g := g₂) c]
    exact ht
  exact h.share hdetached ht₂ hlocals

theorem unlinkChild (h : g.Shown O) (ht : g.outline.Tree) (hc : g.outline.parent? c = some p) :
    (g.unlinkChild p c).Shown O := by
  let g₁ := g.withdrawFromParent c
  let g₂ := g₁.modifyContext p fun data =>
    { data with children := data.children.filter (· ≠ c) }
  let f : Context → Context := fun data =>
    if data.parent = some p then { data with parent := none } else data
  have hfeeds : g₂.Feeds = g.Feeds := by
    refine (feeds_modifyContext (g := g₁) ?_ ?_).trans (feeds_withdrawFromParent c)
    · exact fun _ => rfl
    · exact fun _ => rfl
  have hparent : ∀ {data}, g₂.context? c = some data → data.parent = some p := by
    intro data hdata
    have hsame : (g₂.context? c).map (·.parent) = (g.context? c).map (·.parent) := by
      rw [map_context?_modifyContext g₁ p, map_context?_withdrawFromParent]
      · exact fun _ _ _ => rfl
      · exact fun _ => rfl
    rw [← parent?_eq, parent?] at hc
    rw [hdata] at hsame
    obtain ⟨data₀, hdata₀, he⟩ := Option.map_eq_some_iff.mp hsame.symm
    rw [hdata₀] at hc
    exact he.symm.trans hc
  have hdetached : Detached g (g₂.modifyContext c f) c := by
    refine ⟨fun y hy => ?_, fun x y hx => ?_⟩
    · obtain ⟨data, hdata, _, hnone⟩ := of_feeds_modifyContext hy
      have hcut : (f data).parent = none := by
        show (if data.parent = some p then _ else data).parent = none
        rw [if_pos (hparent hdata)]
      rw [hcut] at hnone
      cases hnone
    · rw [feeds_modifyContext_of_ne hx, hfeeds]
  refine h.withdraw hdetached ht fun x => ?_
  have hf : ∀ data, (f data).locals = data.locals := by
    intro data
    show (if data.parent = some p then _ else data).locals = data.locals
    split <;> rfl
  show ((g₂.modifyContext c f).context? x).map _ = _
  rw [map_context?_modifyContext g₂ c hf, map_context?_modifyContext g₁ p]
  exact fun _ => rfl

theorem startPropagating (h : g.Shown O) (ht : g.outline.Tree) {data : Context}
    (hc : g.context? c = some data) (hoff : data.propagates = false) :
    ((g.modifyContext c ({ · with propagates := true })).shareWithParent c).Shown O := by
  refine h.share ⟨?_, fun x y hx => ?_⟩ ?_ fun x => ?_
  · rintro y ⟨data', hdata', hon, _⟩
    cases hc.symm.trans hdata'
    rw [hoff] at hon
    cases hon
  · exact (feeds_modifyContext_of_ne hx).symm
  · exact (sameBranches_modifyContext g c fun _ => by rfl).tree ht
  · exact map_context?_modifyContext g c (fun _ => by rfl) x

theorem stopPropagating (h : g.Shown O) (ht : g.outline.Tree) :
    ((g.withdrawFromParent c).modifyContext c ({ · with propagates := false })).Shown O := by
  refine h.withdraw (c := c) ⟨fun y hy => ?_, fun x y hx => ?_⟩ ht fun x => ?_
  · obtain ⟨data, _, hon, _⟩ := of_feeds_modifyContext hy
    cases hon
  · rw [feeds_modifyContext_of_ne hx, feeds_withdrawFromParent]
  · exact map_context?_modifyContext _ c (fun _ => by rfl) x

end Shown

/-! ## 6. Names of declarations -/

namespace Shown

variable {O : Multiset Origin} {d : DeclId} {n : Ident}

theorem spreadName (h : g.Shown O) (ht : g.outline.Tree) (c : ContextId) :
    (g.spreadNames c [(n, d)]).Shown ((c, n, d) ::ₘ O) := by
  have hone := h.spread ht c [(n, d)]
  rw [Multiset.add_comm] at hone
  exact hone

theorem recallName (ht : g.outline.Tree) (h : g.Shown ((c, n, d) ::ₘ O)) :
    (g.recallNames c [(n, d)]).Shown O := by
  refine takeBack ht ?_
  rw [Multiset.add_comm]
  exact h

theorem attach (h : g.Shown O) (ht : g.outline.Tree) {data : Declaration}
    (hd : g.declaration? d = some data) (c : ContextId) :
    (g.attach c d).Shown ((c, data.name, d) ::ₘ O) := by
  unfold Graph.attach
  rw [hd]
  dsimp only
  refine spreadName ?_ ?_ c
  · exact h.modifyContext c (fun _ => rfl) (fun _ => rfl) fun _ => rfl
  · exact (sameBranches_modifyContext g c fun _ => by rfl).tree ht

theorem detach (ht : g.outline.Tree) {data : Declaration} (hd : g.declaration? d = some data)
    (h : g.Shown ((c, data.name, d) ::ₘ O)) : (g.detach c d).Shown O := by
  unfold Graph.detach
  rw [hd]
  dsimp only
  refine recallName ?_ ?_
  · exact (sameBranches_modifyContext g c fun _ => by rfl).tree ht
  · exact h.modifyContext c (fun _ => rfl) (fun _ => rfl) fun _ => rfl

end Shown

end Graph

end ScopeGraph
