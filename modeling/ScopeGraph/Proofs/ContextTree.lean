/-
  File:      ScopeGraph/Proofs/ContextTree.lean
  Subject:   Contexts form trees after every sequence of calls.

  A context knows its parent, and its parent lists it unless it is anonymous. That
  the two sides agree, and that no chain of parents comes back to where it began,
  is what every walk up the parents rests on: the walks of the graph stop after a
  number of steps, and here they are shown to stop only because there is no parent
  left.

  * `Graph.ContextTree`: children and parents agree, lists are in order and without
    repetition, parents are there, and chains of parents end;
  * `Graph.WalksUp`: each walk is its own recursion over the parent, without a bound;
  * `Workspace.contextTree_run`: both hold after every sequence of calls.
-/
import ScopeGraph.Proofs.Tending

namespace ScopeGraph

namespace Graph

/-! ## 1. What holds of the contexts of a graph -/

/-- **The contexts of a graph form trees.** -/
structure ContextTree (g : Graph) : Prop where
  mem_children : ∀ p c, c ∈ g.children p ↔
    ∃ data, g.context? c = some data ∧ data.anonymous = false ∧ data.parent = some p
  nodup : ∀ p, (g.children p).Nodup
  inOrder : ∀ p, (g.children p).Pairwise fun c c' => g.startOfContext c ≤ g.startOfContext c'
  parent : ∀ c data p, g.context? c = some data → data.anonymous = false →
    data.parent = some p → ∃ above, g.context? p = some above
  acyclic : ∀ c, ¬ Relation.TransGen (fun x y => g.parent? x = some y) c c
  ends : WellFounded fun p c => g.parent? c = some p

/-- **Walks go up as far as there are parents.** -/
structure WalksUp (g : Graph) : Prop where
  lineage : ∀ c, g.lineage c = c :: (g.parent? c).elim [] g.lineage
  depth : ∀ c, g.depth c = (g.parent? c).elim 0 fun p => g.depth p + 1
  topOf? : ∀ c, g.topOf? c = (g.top? c).or ((g.parent? c).bind g.topOf?)
  scopePathWith : ∀ classes c, g.scopePathWith classes c =
    (g.parent? c).elim [] (g.scopePathWith classes) ++ g.scopePart classes c
  isAtOrAbove : ∀ upper lower, g.isAtOrAbove upper lower = true ↔
    Relation.ReflTransGen (fun x y => g.parent? x = some y) lower upper
  equalScope : ∀ left right, g.equalScope left right = true ↔
    ∃ l r, g.context? left = some l ∧ g.context? right = some r ∧
      l.scopeName.sameAs r.scopeName = true ∧
      ((l.parent = none ∧ r.parent = none) ∨
        ∃ p q, l.parent = some p ∧ r.parent = some q ∧ g.equalScope p q = true)

variable {g : Graph} {c p : ContextId}

/-! ## 2. Chains of parents -/

theorem parent?_of_context? {data : Context} (hc : g.context? c = some data) :
    g.parent? c = data.parent := by
  rw [parent?, hc, Option.bind_some]

/-- A chain that ends is one that no walk leaves. -/
theorem acc_of_line {l : List ContextId} (h : g.outline.Line c l) :
    Acc (fun p c => g.parent? c = some p) c := by
  induction h with
  | root hr =>
    refine .intro _ fun p hp => ?_
    rw [parent?_eq, hr] at hp
    cases hp
  | step hs _ ih =>
    refine .intro _ fun p hp => ?_
    rw [parent?_eq, hs] at hp
    cases hp
    exact ih

theorem wellFounded_parent (ht : g.outline.Tree) :
    WellFounded fun p c => g.parent? c = some p :=
  ⟨fun c => (ht.line c).elim fun _ hl => acc_of_line hl⟩

theorem mem_children_of_tree (ht : g.outline.Tree) : c ∈ g.children p ↔
    ∃ data, g.context? c = some data ∧ data.anonymous = false ∧ data.parent = some p := by
  rw [mem_children_iff]
  constructor
  · rintro ⟨f, hf, hmem⟩
    obtain ⟨_, hfc, hanon, hparent⟩ := ht.child hf hmem
    obtain ⟨data, hdata, rfl⟩ := outline_context.mp hfc
    exact ⟨data, hdata, hanon, hparent⟩
  · rintro ⟨data, hdata, hanon, hparent⟩
    exact ht.parent (outline_context.mpr ⟨data, hdata, rfl⟩) hanon hparent

theorem Kempt.contextTree {s : Multiset Origin} (h : g.Kempt s) : g.ContextTree where
  mem_children _ _ := mem_children_of_tree h.consistent.tree
  nodup := nodup_children h.consistent.tree.matched
  inOrder := h.sorted.children
  parent c data p hc hanon hp := by
    obtain ⟨_, hfp, _⟩ := h.consistent.tree.parent (outline_context.mpr ⟨data, hc, rfl⟩) hanon hp
    obtain ⟨above, habove, _⟩ := outline_context.mp hfp
    exact ⟨above, habove⟩
  acyclic c hcycle := by
    have hswap := Relation.transGen_swap.mpr hcycle
    exact (wellFounded_parent h.consistent.tree).transGen.asymmetric _ _ hswap hswap
  ends := wellFounded_parent h.consistent.tree

/-! ## 3. Walks -/

section Walks

variable (ht : g.outline.Tree)

include ht

theorem lineage_unfold (c : ContextId) : g.lineage c = c :: (g.parent? c).elim [] g.lineage := by
  obtain ⟨l, hl⟩ := ht.line c
  rw [lineage_eq hl, parent?_eq]
  cases hl with
  | root hr => rw [hr]; rfl
  | step hs hl =>
    rw [hs, Option.elim_some, lineage_eq hl]

/-- What is above a context on the way up from another one is what is above it anyway. -/
theorem above_of_suffix {x : ContextId} {above : List ContextId} {data : Context}
    (h : (x :: above) <:+ g.lineage c) (hx : g.context? x = some data) :
    above = data.parent.elim [] g.lineage := by
  obtain ⟨l, hl⟩ := ht.line c
  rw [lineage_eq hl] at h
  have hup := lineage_unfold ht x
  rw [lineage_eq (hl.of_suffix h), parent?_of_context? hx] at hup
  exact (List.cons_eq_cons.mp hup).2

theorem depth_unfold (c : ContextId) :
    g.depth c = (g.parent? c).elim 0 fun p => g.depth p + 1 := by
  unfold depth
  rw [lineage_unfold ht c]
  cases g.parent? c with
  | none => rfl
  | some p =>
    rw [Option.elim_some, Option.elim_some, lineage_unfold ht p]
    rfl

theorem topOf?_unfold (c : ContextId) :
    g.topOf? c = (g.top? c).or ((g.parent? c).bind g.topOf?) := by
  unfold topOf?
  rw [lineage_unfold ht c, List.findSome?_cons]
  cases g.top? c with
  | none => cases g.parent? c <;> rfl
  | some t => rfl

theorem scopePathWith_unfold (classes : Bool) (c : ContextId) : g.scopePathWith classes c =
    (g.parent? c).elim [] (g.scopePathWith classes) ++ g.scopePart classes c := by
  unfold scopePathWith
  rw [lineage_unfold ht c, List.reverse_cons, List.flatMap_append, List.flatMap_singleton]
  cases g.parent? c <;> rfl

theorem isAtOrAbove_iff (upper lower : ContextId) : g.isAtOrAbove upper lower = true ↔
    Relation.ReflTransGen (fun x y => g.parent? x = some y) lower upper := by
  obtain ⟨l, hl⟩ := ht.line lower
  unfold isAtOrAbove
  rw [decide_eq_true_iff, lineage_eq hl]
  induction hl with
  | @root c hr =>
    rw [List.mem_singleton]
    constructor
    · rintro rfl
      exact .refl
    · intro h
      rcases Relation.ReflTransGen.cases_head h with e | ⟨p, hp, _⟩
      · exact e.symm
      · rw [parent?_eq, hr] at hp
        cases hp
  | @step c p l hs _ ih =>
    rw [List.mem_cons, ih]
    constructor
    · rintro (rfl | h)
      · exact .refl
      · exact .head (by rw [parent?_eq, hs]) h
    · intro h
      rcases Relation.ReflTransGen.cases_head h with e | ⟨q, hq, h⟩
      · exact .inl e.symm
      · rw [parent?_eq, hs] at hq
        cases hq
        exact .inr h

/-- Two walks that are at the same height go on together or end together. -/
theorem sameScopes_elim (a b : Option ContextId) :
    g.sameScopes (a.elim [] g.lineage) (b.elim [] g.lineage) = true ↔
      (a = none ∧ b = none) ∨ ∃ p q, a = some p ∧ b = some q ∧ g.equalScope p q = true := by
  cases a with
  | none =>
    cases b with
    | none => simp [sameScopes]
    | some q => simp [lineage_unfold ht q, sameScopes]
  | some p =>
    cases b with
    | none => simp [lineage_unfold ht p, sameScopes]
    | some q => simp [equalScope]

theorem equalScope_iff (left right : ContextId) : g.equalScope left right = true ↔
    ∃ l r, g.context? left = some l ∧ g.context? right = some r ∧
      l.scopeName.sameAs r.scopeName = true ∧
      ((l.parent = none ∧ r.parent = none) ∨
        ∃ p q, l.parent = some p ∧ r.parent = some q ∧ g.equalScope p q = true) := by
  have hstep : g.equalScope left right =
      g.sameScopes (left :: (g.parent? left).elim [] g.lineage)
        (right :: (g.parent? right).elim [] g.lineage) := by
    unfold equalScope
    rw [← lineage_unfold ht left, ← lineage_unfold ht right]
  rw [hstep, sameScopes]
  cases hl : g.context? left with
  | none => simp
  | some l =>
    cases hr : g.context? right with
    | none => simp
    | some r =>
      simp only [parent?_of_context? hl, parent?_of_context? hr, Bool.and_eq_true,
        sameScopes_elim ht, Option.some.injEq, exists_and_left, exists_eq_left']

theorem walksUp : g.WalksUp where
  lineage := lineage_unfold ht
  depth := depth_unfold ht
  topOf? := topOf?_unfold ht
  scopePathWith := scopePathWith_unfold ht
  isAtOrAbove := isAtOrAbove_iff ht
  equalScope := equalScope_iff ht

end Walks

end Graph

/-! ## 4. Sequences of calls -/

namespace Workspace

/-- **After every sequence of calls the contexts form trees, and every walk up the
    parents ends.** -/
theorem contextTree_run (limits : Limits) (calls : List Call)
    (hfrees : (empty limits).FewFrees calls) :
    ((empty limits).run calls).graph.ContextTree ∧ ((empty limits).run calls).graph.WalksUp := by
  obtain ⟨_, hkept, _⟩ := kept_run hfrees
  exact ⟨hkept.kempt.contextTree, Graph.walksUp hkept.kempt.consistent.tree⟩

/-- Two contexts of a file, the second of which is put below the first. The first
    cannot be put below the second then, nor below an anonymous context of it. -/
def refusedCircle : List Call :=
  [.change (.createTop ⟨0⟩ {}), .change (.createContext ⟨0, 0⟩ { start := ⟨5, 0⟩, stop := ⟨6, 0⟩ }),
    .change (.createContext ⟨0, 0⟩ { start := ⟨3, 0⟩, stop := ⟨4, 0⟩ }),
    .change (.addChild ⟨1, 0⟩ ⟨2, 0⟩), .change (.createAnonymous ⟨2, 0⟩ {}),
    .change (.addChild ⟨2, 0⟩ ⟨1, 0⟩), .change (.addChild ⟨3, 0⟩ ⟨1, 0⟩)]

theorem contextTree_run_refused :
    let g := ((empty {}).run refusedCircle).graph
    g.children ⟨1, 0⟩ = [⟨2, 0⟩] ∧ g.lineage ⟨3, 0⟩ = [⟨3, 0⟩, ⟨2, 0⟩, ⟨1, 0⟩, ⟨0, 0⟩] ∧
      ¬ Relation.TransGen (fun x y => g.parent? x = some y) ⟨1, 0⟩ ⟨1, 0⟩ ∧
      Relation.ReflTransGen (fun x y => g.parent? x = some y) ⟨3, 0⟩ ⟨0, 0⟩ := by
  have hrun := contextTree_run {} refusedCircle (fewFrees_of_length (by decide))
  exact ⟨by decide +kernel, by decide +kernel, hrun.1.acyclic _,
    (hrun.2.isAtOrAbove _ _).mp (by decide +kernel)⟩

end Workspace

end ScopeGraph
