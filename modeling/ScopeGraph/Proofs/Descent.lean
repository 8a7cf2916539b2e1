/-
  File:      ScopeGraph/Proofs/Descent.lean
  Subject:   Walking down the children of a context, and back up the parents.

  The walks down are written in two ways. Whether one context is a parent of another is
  asked of the child lists by recursion, and the uses in a tree are gathered by a loop
  with a stack. Children lead nowhere back (`Outline.Nested`), so both walks end, and
  both come to the same contexts in the same order.

  * `Graph.subtree_unfold`: the tree below a context is the context and the trees below
    its children;
  * `Graph.visits_eq`: the loop with a stack comes to the contexts of the tree in order;
  * `Graph.WalksDown`: what the walks down answer;
  * `Workspace.walksDown_run`: they answer so in every state.
-/
import ScopeGraph.Proofs.Growth

namespace ScopeGraph

/-! ## 1. The tree below a context -/

namespace Outline

variable {o : Outline} {p a b : ContextId}

/-- Of two children of a context none is below the other: the way down to it goes by
    their parent. -/
theorem Nested.eq_of_below_sibling (ho : o.Nested) (ha : o.Child p a) (hb : o.Child p b)
    (hbelow : o.Below a b) : a = b := by
  rcases Relation.ReflTransGen.cases_tail hbelow with e | ⟨q, hq, hqb⟩
  · exact e.symm
  · have hup := (ho.listed.parent?_of_child hqb).symm.trans (ho.listed.parent?_of_child hb)
    cases hup
    exact absurd (.head' ha hq) (ho.acyclic _)

/-- A context is among the children of another one just if it is named and names that one
    as its parent. -/
theorem Matched.child_iff (hm : o.Matched) : o.Child p a ↔
    ∃ f, o.context a = some f ∧ f.anonymous = false ∧ f.parent = some p := by
  constructor
  · intro h
    obtain ⟨f, hf, hmem⟩ := h
    exact hm.listed p a f hf hmem
  · intro h
    obtain ⟨f, hf, hanon, hparent⟩ := h
    exact hm.parent hf hanon hparent

end Outline

namespace Graph

open Outline

variable {g : Graph} {order : List ContextId → List ContextId} {c x : ContextId}

/-- A walk that may go down far enough does not depend on how far it may. -/
theorem subtreeWithin_congr (horder : ∀ l x, x ∈ order l ↔ x ∈ l) {m n : Nat}
    (hm : g.outline.Shallow m c) (hn : g.outline.Shallow n c) :
    g.subtreeWithin order m c = g.subtreeWithin order n c := by
  induction m generalizing n c with
  | zero => exact hm.elim
  | succ m ih =>
    cases n with
    | zero => exact hn.elim
    | succ n =>
      unfold subtreeWithin
      refine congrArg (c :: ·) (List.flatMap_congr fun child hchild => ?_)
      have hchild := mem_children_iff.mp ((horder _ _).mp hchild)
      exact ih (hm child hchild) (hn child hchild)

/-- **The tree below a context is the context and the trees below its children.** -/
theorem subtree_unfold (ha : g.outline.Acyclic) (c : ContextId) :
    g.subtree c = c :: (g.children c).flatMap g.subtree := by
  have hc : g.outline.Shallow (g.contexts.capacity + 1) c := shallow ha c
  show c :: (g.children c).flatMap (g.subtreeWithin id g.contexts.capacity) = _
  refine congrArg (c :: ·) (List.flatMap_congr fun child hchild => ?_)
  exact subtreeWithin_congr (fun _ _ => Iff.rfl) (hc child (mem_children_iff.mp hchild))
    (shallow ha child)

/-- A walk down comes to no context twice. -/
theorem nodup_subtreeWithin (hg : g.outline.Nested) {n : Nat} (hn : g.outline.Shallow n c) :
    (g.subtreeWithin id n c).Nodup := by
  induction n generalizing c with
  | zero => exact hn.elim
  | succ n ih =>
    have hbelow : ∀ {child}, child ∈ g.children c → ∀ {x}, x ∈ g.subtreeWithin id n child →
        g.outline.Below child x := fun hchild _ =>
      (mem_subtreeWithin_iff (fun _ _ => Iff.rfl) (hn _ (mem_children_iff.mp hchild)) _).mp
    unfold subtreeWithin
    refine List.nodup_cons.mpr ⟨fun hc => ?_, List.nodup_flatMap.mpr ⟨fun child hchild => ?_, ?_⟩⟩
    · obtain ⟨child, hchild, hc⟩ := List.mem_flatMap.mp hc
      exact hg.acyclic c (.head' (mem_children_iff.mp hchild) (hbelow hchild hc))
    · exact ih (hn child (mem_children_iff.mp hchild))
    · refine (nodup_children hg.toMatched c).pairwise_of_forall_ne fun a ha b hb hne x hxa hxb => ?_
      have hca := mem_children_iff.mp ha
      have hcb := mem_children_iff.mp hb
      rcases hg.listed.below_total (hbelow ha hxa) (hbelow hb hxb) with h | h
      · exact hne (hg.eq_of_below_sibling hca hcb h)
      · exact hne (hg.eq_of_below_sibling hcb hca h).symm

theorem nodup_subtree (hg : g.outline.Nested) (c : ContextId) : (g.subtree c).Nodup :=
  nodup_subtreeWithin hg (shallow hg.acyclic c)

/-- All that is strictly below a context is there, so there is room for no more. -/
theorem length_subtree_le (hg : g.outline.Nested) (c : ContextId) :
    (g.subtree c).length ≤ g.chainBound := by
  have hnodup := nodup_subtree hg c
  rw [subtree_unfold hg.acyclic] at hnodup ⊢
  refine Nat.succ_le_succ (length_le_of_live (List.nodup_cons.mp hnodup).2 fun x hx => ?_)
  obtain ⟨child, hchild, hx⟩ := List.mem_flatMap.mp hx
  have hchild := mem_children_iff.mp hchild
  have hbelow := (mem_subtree_iff hg.acyclic).mp hx
  obtain ⟨p, _, hlast⟩ := Relation.TransGen.tail'_iff.mp (.head' hchild hbelow)
  obtain ⟨f, hf, _⟩ := hg.toMatched.child_iff.mp hlast
  exact Option.isSome_iff_exists.mpr ⟨f, hf⟩

/-- Down is a direction in which every walk ends. -/
theorem acc_of_shallow {n : Nat} (hn : g.outline.Shallow n c) :
    Acc (fun child p => child ∈ g.children p) c := by
  induction n generalizing c with
  | zero => exact hn.elim
  | succ n ih => exact ⟨c, fun child hchild => ih (hn child (mem_children_iff.mp hchild))⟩

/-! ## 2. The loop with a stack -/

/-- The contexts that at most `n` rounds of the loop take from a stack. -/
def visitsAlong (g : Graph) : Nat → List ContextId → List ContextId
  | 0, _ => []
  | _ + 1, [] => []
  | n + 1, c :: stack => c :: g.visitsAlong n (g.children c ++ stack)

/-- The contexts that the loop takes from the stack, in the order in which it does. -/
def visits (g : Graph) (c : ContextId) : List ContextId := g.visitsAlong g.chainBound [c]

theorem usesIn_eq (index : Nat) (c : ContextId) : g.usesIn index c =
    (g.context? c).elim [] fun data => (data.uses.filter (·.index = index)).map (·.range) := by
  unfold usesIn
  cases g.context? c <;> rfl

theorem usesAlong_eq (index n : Nat) (stack : List ContextId) :
    g.usesAlong index n stack = (g.visitsAlong n stack).flatMap (g.usesIn index) := by
  induction n generalizing stack with
  | zero => rfl
  | succ n ih =>
    cases stack with
    | nil => rfl
    | cons c stack =>
      unfold usesAlong visitsAlong
      rw [ih, List.flatMap_cons]

/-- The loop empties the stack, tree by tree: what it pushes for a context are the roots of
    the rest of the context's tree. -/
theorem visitsAlong_eq (ha : g.outline.Acyclic) {n : Nat} {stack : List ContextId}
    (hn : (stack.flatMap g.subtree).length ≤ n) :
    g.visitsAlong n stack = stack.flatMap g.subtree := by
  induction n generalizing stack with
  | zero => exact (List.eq_nil_of_length_eq_zero (Nat.le_zero.mp hn)).symm
  | succ n ih =>
    cases stack with
    | nil => rfl
    | cons c stack =>
      have hnext : (c :: stack).flatMap g.subtree =
          c :: (g.children c ++ stack).flatMap g.subtree := by
        rw [List.flatMap_cons, subtree_unfold ha, List.flatMap_append, List.cons_append]
      rw [hnext] at hn ⊢
      unfold visitsAlong
      rw [ih (Nat.le_of_succ_le_succ hn)]

/-- **The loop comes to the contexts of the tree in order.** -/
theorem visits_eq (hg : g.outline.Nested) (c : ContextId) : g.visits c = g.subtree c := by
  have hone : [c].flatMap g.subtree = g.subtree c := List.flatMap_singleton ..
  unfold visits
  rw [visitsAlong_eq hg.acyclic (hone ▸ length_subtree_le hg c), hone]

theorem allUses_eq (hg : g.outline.Nested) (index : Nat) (c : ContextId) :
    g.allUses c index = (g.subtree c).flatMap (g.usesIn index) := by
  rw [← visits_eq hg]
  exact usesAlong_eq index _ _

/-! ## 3. Up and down -/

/-- From a context that a walk up comes to past named contexts only there is a way down. -/
theorem below_of_lineageWithin (hm : g.outline.Matched) {n : Nat} {below above : List ContextId}
    (hline : g.lineageWithin n x = below ++ c :: above) (hnamed : ∀ y ∈ below, g.outline.Named y) :
    g.outline.Below c x := by
  induction below generalizing n x with
  | nil =>
    cases n with
    | zero => cases hline
    | succ n =>
      cases hline
      exact .refl
  | cons y below ih =>
    cases n with
    | zero => cases hline
    | succ n =>
      unfold lineageWithin at hline
      obtain ⟨rfl, hrest⟩ := List.cons_eq_cons.mp hline
      obtain ⟨⟨f, hf, hanon⟩, hnamed⟩ := List.forall_mem_cons.mp hnamed
      cases hp : g.parent? x with
      | none =>
        rw [hp] at hrest
        exact absurd hrest.symm (List.append_ne_nil_of_right_ne_nil _ (List.cons_ne_nil _ _))
      | some p =>
        rw [hp] at hrest
        rw [parent?_eq, parent?_of_context hf] at hp
        exact (ih hrest hnamed).tail (hm.parent hf hanon hp)

theorem named_iff : g.outline.Named c ↔
    ∃ data, g.context? c = some data ∧ data.anonymous = false := by
  unfold Named
  rw [outline_context_eq]
  cases g.context? c <;> simp [Context.form]

/-- A context is below another one just if parents lead up to that one from it and no
    context before it is anonymous. -/
theorem below_iff_parents (hm : g.outline.Matched) : g.outline.Below c x ↔
    Relation.ReflTransGen (fun y p => ∃ data, g.context? y = some data ∧
      data.anonymous = false ∧ data.parent = some p) x c := by
  have hstep : (fun y p => ∃ data, g.context? y = some data ∧
      data.anonymous = false ∧ data.parent = some p) = Function.swap g.outline.Child := by
    funext y p
    refine propext (Iff.trans ?_ hm.child_iff.symm)
    rw [outline_context_eq]
    cases g.context? y <;> simp [Context.form]
  rw [hstep, Relation.reflTransGen_swap]
  rfl

/-- **What the walks down answer.** The two kinds of recursion go over trees that end;
    the contexts of such a tree are those from which a walk up past named contexts comes
    to its root, and the loop with a stack comes to each of them once. -/
structure WalksDown (g : Graph) : Prop where
  ends : WellFounded fun c p => c ∈ g.children p
  isParentOf : ∀ a b, g.isParentOf a b = (a == b || (g.children a).any (g.isParentOf · b))
  lineage : ∀ a b, g.isParentOf a b = true ↔ ∃ below above, g.lineage b = below ++ a :: above ∧
    ∀ x ∈ below, ∃ data, g.context? x = some data ∧ data.anonymous = false
  parents : ∀ a b, g.isParentOf a b = true ↔
    Relation.ReflTransGen (fun x p => ∃ data, g.context? x = some data ∧
      data.anonymous = false ∧ data.parent = some p) b a
  allUses : ∀ a data index, g.context? a = some data → g.allUses a index =
    (data.uses.filter (·.index = index)).map (·.range) ++
      data.children.flatMap fun child => g.allUses child index
  noUses : ∀ a index, g.context? a = none → g.allUses a index = []
  visited : ∀ a index, g.allUses a index = (g.visits a).flatMap fun c =>
    (g.context? c).elim [] fun data => (data.uses.filter (·.index = index)).map (·.range)
  once : ∀ a, (g.visits a).Nodup
  all : ∀ a b, b ∈ g.visits a ↔ g.isParentOf a b = true

section Walks

variable (hg : g.outline.Nested)

include hg

theorem isParentOf_iff_below (a b : ContextId) : g.isParentOf a b = true ↔ g.outline.Below a b := by
  unfold isParentOf
  rw [decide_eq_true_iff, mem_subtree_iff hg.acyclic]

theorem isParentOf_unfold (a b : ContextId) :
    g.isParentOf a b = (a == b || (g.children a).any (g.isParentOf · b)) := by
  unfold isParentOf
  rw [Bool.eq_iff_iff, Bool.or_eq_true, beq_iff_eq, List.any_eq_true]
  simp only [decide_eq_true_iff]
  rw [subtree_unfold hg.acyclic a, List.mem_cons, List.mem_flatMap]
  exact or_congr eq_comm Iff.rfl

theorem isParentOf_iff_lineage (a b : ContextId) : g.isParentOf a b = true ↔
    ∃ below above, g.lineage b = below ++ a :: above ∧
      ∀ x ∈ below, ∃ data, g.context? x = some data ∧ data.anonymous = false := by
  simp only [isParentOf_iff_below hg, ← named_iff]
  constructor
  · exact lineage_of_below hg
  · intro h
    obtain ⟨below, above, hline, hnamed⟩ := h
    exact below_of_lineageWithin hg.toMatched hline hnamed

theorem allUses_unfold (a : ContextId) (index : Nat) : g.allUses a index =
    ((g.context? a).elim [] fun data => (data.uses.filter (·.index = index)).map (·.range)) ++
      (g.children a).flatMap fun child => g.allUses child index := by
  simp only [allUses_eq hg]
  rw [subtree_unfold hg.acyclic a, List.flatMap_cons, List.flatMap_assoc, usesIn_eq]

theorem walksDown : g.WalksDown where
  ends := ⟨fun c => acc_of_shallow (shallow hg.acyclic c)⟩
  isParentOf := isParentOf_unfold hg
  lineage := isParentOf_iff_lineage hg
  parents a b := (isParentOf_iff_below hg a b).trans (below_iff_parents hg.toMatched)
  allUses a data index ha := by
    rw [allUses_unfold hg, children, ha]
    rfl
  noUses a index ha := by
    rw [allUses_unfold hg, children, ha]
    rfl
  visited a index := by
    rw [allUses, usesAlong_eq]
    exact List.flatMap_congr fun c _ => usesIn_eq index c
  once a := by
    rw [visits_eq hg]
    exact nodup_subtree hg a
  all a b := by
    rw [visits_eq hg, isParentOf_iff_below hg, mem_subtree_iff hg.acyclic]

end Walks

end Graph

/-! ## 4. Sequences of calls -/

namespace Workspace

/-- **Going down and going up agree in every state.** One context is a parent of another
    by the lists of children just if a walk up the parents comes to it past named contexts
    only, and the uses in a tree come in the order of the tree, each context's once. -/
theorem walksDown_run (limits : Limits) (calls : List Call) :
    ((empty limits).run calls).graph.WalksDown :=
  Graph.walksDown (nested_run (wired_empty limits) (nested_empty limits) calls)

/-- A file with one context, which has another one and an anonymous one below it. The
    anonymous one has a context of its own, and all but the anonymous one have a use of
    the same declaration. -/
def veiledScopes : List Call :=
  [.change (.createTop ⟨0⟩ {}), .change (.createContext ⟨0, 0⟩ {}),
    .change (.createAnonymous ⟨1, 0⟩ {}), .change (.createContext ⟨2, 0⟩ {}),
    .change (.createContext ⟨1, 0⟩ {}),
    .change (.createUse ⟨4, 0⟩ 7 { start := ⟨4, 0⟩, stop := ⟨4, 9⟩ } none),
    .change (.createUse ⟨3, 0⟩ 7 { start := ⟨3, 0⟩, stop := ⟨3, 9⟩ } none),
    .change (.createUse ⟨1, 0⟩ 7 { start := ⟨1, 0⟩, stop := ⟨1, 9⟩ } none),
    .change (.createUse ⟨0, 0⟩ 7 { start := ⟨0, 0⟩, stop := ⟨0, 9⟩ } none)]

/-- A walk up from the context below the anonymous one comes to the file, but past the
    anonymous one. So the file is no parent of it, and its use is not among those of the
    file's tree; the anonymous context itself is its parent. -/
theorem walksDown_run_veiled :
    let g := ((empty {}).run veiledScopes).graph
    g.isAtOrAbove ⟨0, 0⟩ ⟨3, 0⟩ = true ∧ g.isParentOf ⟨0, 0⟩ ⟨3, 0⟩ = false ∧
      ¬ Relation.ReflTransGen (fun x p => ∃ data, g.context? x = some data ∧
        data.anonymous = false ∧ data.parent = some p) ⟨3, 0⟩ ⟨0, 0⟩ ∧
      g.isParentOf ⟨2, 0⟩ ⟨3, 0⟩ = true ∧ g.visits ⟨0, 0⟩ = [⟨0, 0⟩, ⟨1, 0⟩, ⟨4, 0⟩] ∧
      g.allUses ⟨0, 0⟩ 7 = [⟨⟨0, 0⟩, ⟨0, 9⟩⟩, ⟨⟨1, 0⟩, ⟨1, 9⟩⟩, ⟨⟨4, 0⟩, ⟨4, 9⟩⟩] := by
  intro g
  have hno : g.isParentOf ⟨0, 0⟩ ⟨3, 0⟩ = false := by decide +kernel
  have hvisits : g.visits ⟨0, 0⟩ = [⟨0, 0⟩, ⟨1, 0⟩, ⟨4, 0⟩] := by decide +kernel
  have hdown : g.WalksDown := walksDown_run {} veiledScopes
  refine ⟨by decide +kernel, hno, fun h => ?_, by decide +kernel, hvisits, ?_⟩
  · rw [(hdown.parents _ _).mpr h] at hno
    cases hno
  · rw [hdown.visited, hvisits]
    decide +kernel

end Workspace

end ScopeGraph
