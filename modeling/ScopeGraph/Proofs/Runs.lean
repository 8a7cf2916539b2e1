/-
  File:      ScopeGraph/Proofs/Runs.lean
  Subject:   What holds after every sequence of calls.

  `run_invariant` is the one induction over sequences of calls. Along the way
  it keeps count: the generation of a slot is the number of times it was
  freed, so as long as no slot is freed `2 ^ 32` times generations only grow,
  and no handle is given out twice.
-/
import ScopeGraph.Proofs.ImportEdits
import ScopeGraph.Proofs.SearchMemo

namespace ScopeGraph

namespace Workspace

/-- **Imports, memo and stores are in order**: what holds in every state. -/
structure Faithful (w : Workspace) : Prop where
  linked : w.Linked
  grounded : w.graph.Grounded w.memo

theorem wired_empty (limits : Limits) : (empty limits).Wired := by
  refine ⟨Store.tidy_empty, ⟨?_, ?_, fun a b => ⟨?_, ?_⟩, ?_⟩⟩
  · intro a data h
    cases h
  · intro a data h
    cases h
  · rintro ⟨_, h, _⟩
    cases h
  · rintro ⟨_, h, _⟩
    cases h
  · rintro a ⟨_, h, _⟩
    cases h

theorem wired_call {w : Workspace} (hw : w.Wired) (call : Call) : (call.apply w).Wired := by
  cases call with
  | change e => exact e.wired hw
  | question q =>
    have hgraph := q.graph_apply w
    exact ⟨hgraph.symm ▸ hw.tidy, hgraph.symm ▸ hw.mirrored⟩

/-- **The imports are known at both ends in every state**, however often slots were
    freed. -/
theorem wired_run {w : Workspace} (hw : w.Wired) (calls : List Call) : (w.run calls).Wired := by
  induction calls generalizing w with
  | nil => exact hw
  | cons call rest ih => exact ih (wired_call hw call)

theorem faithful_empty (limits : Limits) : (empty limits).Faithful := by
  refine ⟨⟨wired_empty limits, ?_, ?_⟩, ?_⟩
  · intro e he
    cases he
  · intro s t _ hknows
    cases hknows
  · intro e he
    cases he

theorem Faithful.coherent {w : Workspace} (h : w.Faithful) : w.graph.Coherent w.memo :=
  ⟨h.linked.truthful, h.grounded⟩

/-- The generations of context slots do not shrink from one workspace to
    another. -/
def Ages (w w' : Workspace) : Prop :=
  ∀ i, w.graph.contexts.generationAt i ≤ w'.graph.contexts.generationAt i

end Workspace

namespace Call

open Workspace

theorem evolves (call : Call) {w : Workspace} (hw : w.Faithful) :
    Store.Evolves w.graph.contexts (call.apply w).graph.contexts := by
  cases call with
  | change e => exact e.evolves hw.linked.toWired
  | question q =>
    have hgraph := (q.keeps (fun s t => Graph.keeps_hopTowards s t) hw.coherent).2
    show Store.Evolves _ (q.apply w).graph.contexts
    rw [hgraph]
    exact (Store.OnlyFrees.refl _).evolves

/-- **One call keeps imports, memo and stores in order.** -/
theorem faithful (call : Call) {w : Workspace} (hw : w.Faithful) (hages : w.Ages (call.apply w)) :
    (call.apply w).Faithful := by
  cases call with
  | change e =>
    refine ⟨e.linked hw.linked hw.grounded, fun x hx hhop => ?_⟩
    have hissued := hw.grounded x (e.memo_subset hw.linked.toWired x hx) hhop
    exact (e.evolves hw.linked.toWired).issued hages hissued
  | question q =>
    obtain ⟨hm, hgraph⟩ := q.keeps (fun s t => Graph.keeps_hopTowards s t) hw.coherent
    have hrouted := (q.keeps (fun s t => Graph.keeps_routed s t) hw.linked.routed).1
    show (q.apply w).Faithful
    refine ⟨⟨⟨?_, ?_⟩, ?_, ?_⟩, ?_⟩
    · rw [hgraph]
      exact hw.linked.tidy
    · rw [hgraph]
      exact hw.linked.mirrored
    · rw [hgraph]
      exact hm.truthful
    · rw [hgraph]
      exact hrouted
    · rw [hgraph]
      exact hm.grounded

end Call

namespace Workspace

/-- What the slots were freed already and are freed by the calls to come stays
    below the number of generations. -/
def Lasts (w : Workspace) (calls : List Call) : Prop :=
  ∀ i, (w.graph.contexts.generationAt i).toNat + w.contextFrees i calls < UInt32.size

theorem FewFrees.lasts {limits : Limits} {calls : List Call}
    (h : (empty limits).FewFrees calls) : (empty limits).Lasts calls := by
  intro i
  have hzero : ((empty limits).graph.contexts.generationAt i).toNat = 0 := rfl
  rw [hzero, Nat.zero_add]
  exact h i

/-- A slot that is freed is one generation older, and no other gets older. -/
theorem Lasts.step {w : Workspace} {call : Call} {rest : List Call} (h : w.Lasts (call :: rest))
    (hev : Store.Evolves w.graph.contexts (call.apply w).graph.contexts) :
    w.Ages (call.apply w) ∧ (call.apply w).Lasts rest := hev.lasts h

/-- **What the first workspace has and every call keeps, every run keeps.**
    What is kept may speak of the calls to come. -/
theorem run_invariant {I : Workspace → List Call → Prop}
    (hstep : ∀ w call rest, w.Faithful → w.Ages (call.apply w) → I w (call :: rest) →
      I (call.apply w) rest) :
    ∀ calls w, w.Faithful → w.Lasts calls → I w calls →
      (w.run calls).Faithful ∧ I (w.run calls) [] := by
  intro calls
  induction calls with
  | nil => exact fun w hw _ hi => ⟨hw, hi⟩
  | cons call rest ih =>
    intro w hw hlasts hi
    obtain ⟨hages, hlasts'⟩ := hlasts.step (call.evolves hw)
    exact ih _ (call.faithful hw hages) hlasts' (hstep w call rest hw hages hi)

theorem faithful_run {limits : Limits} {calls : List Call}
    (h : (empty limits).FewFrees calls) : ((empty limits).run calls).Faithful :=
  (run_invariant (I := fun _ _ => True) (fun _ _ _ _ _ _ => trivial) calls _
    (faithful_empty limits) h.lasts trivial).1

/-- What each call adds at most one to is at most the number of calls. -/
theorem count_le_length {c : Workspace → List Call → Nat} (hnil : ∀ w, c w [] = 0)
    (hcons : ∀ w call rest, c w (call :: rest) ≤ 1 + c (call.apply w) rest)
    (w : Workspace) (calls : List Call) : c w calls ≤ calls.length := by
  induction calls generalizing w with
  | nil => exact Nat.le_of_eq (hnil w)
  | cons call rest ih =>
    have hstep := hcons w call rest
    have hrest := ih (call.apply w)
    rw [List.length_cons]
    omega

/-- Sequences of fewer than `2 ^ 32` calls free no slot of a context too often. -/
theorem fewFrees_of_length {w : Workspace} {calls : List Call} (h : calls.length < UInt32.size) :
    w.FewFrees calls := fun i =>
  Nat.lt_of_le_of_lt (count_le_length (c := fun w => w.contextFrees i) (fun _ => rfl)
    (fun _ _ _ => Nat.add_le_add_right (Bool.toNat_le _) _) w calls) h

/-- Nor one of a declaration. -/
theorem fewDeclarationFrees_of_length {w : Workspace} {calls : List Call}
    (h : calls.length < UInt32.size) : w.FewDeclarationFrees calls := fun i =>
  Nat.lt_of_le_of_lt (count_le_length (c := fun w => w.declarationFrees i) (fun _ => rfl)
    (fun _ _ _ => Nat.add_le_add_right (Bool.toNat_le _) _) w calls) h

end Workspace

end ScopeGraph
