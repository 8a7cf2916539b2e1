/-
  File:      ScopeGraph/Proofs/Roots.lean
  Subject:   Tops are roots, as long as none is put below another context.

  A context is moved by cutting it from the parent that it names and linking it to
  another one. So wherever it is listed as a child it names the parent that lists it,
  and a top that was never moved names none. This much holds without any bound on how
  often handles are given out: nothing is said here of chains of parents that end.

  * `Graph.Forest`: children name the parent that lists them, and tops are below nothing;
  * `Growing.rooted`: every step keeps it that links no top to a parent;
  * `Workspace.tops_are_roots`: so every way up that comes to a top ends there, and the
    trees below two tops have nothing in common;
  * `Workspace.nested_top`: a top that is put below another one is no root.
-/
import ScopeGraph.Proofs.Growth

namespace ScopeGraph

/-! ## 1. Outlines -/

namespace Outline

variable {o o' : Outline} {p c : ContextId}

theorem Rooted.unlink (hr : o.Rooted) (p c : ContextId) : (o.unlink p c).Rooted := by
  intro x f' hx htop
  obtain ⟨f, hf, rfl⟩ := of_place hx
  obtain ⟨hparent, hanon⟩ := hr x f hf htop
  refine ⟨?_, hanon⟩
  dsimp only
  rw [hparent, ite_self]

/-- A context that is no top may be put below another one. -/
theorem Rooted.link (hr : o.Rooted) {fc : Form} (hc : o.context c = some fc)
    (htop : fc.isTop = false) : (o.link p c).Rooted := by
  intro x f' hx htop'
  obtain ⟨f, hf, rfl⟩ := of_place hx
  have hne : x ≠ c := by
    intro e
    subst e
    cases hc.symm.trans hf
    exact Bool.false_ne_true (htop.symm.trans htop')
  obtain ⟨hparent, hanon⟩ := hr x f hf htop'
  exact ⟨(if_neg hne).trans hparent, hanon⟩

theorem Rooted.erase (hr : o.Rooted) (c : ContextId) : (o.erase c).Rooted :=
  fun x f hx htop => hr x f (of_erase hx).2 htop

/-- **Every step keeps the tops below nothing** that links none to a parent. -/
theorem Growing.rooted {nest : Prop} (hnest : ¬ nest) (h : o.Growing nest o') (hr : o.Rooted) :
    o'.Rooted := by
  cases h with
  | shrink h =>
    cases h with
    | same h => exact h.rooted hr
    | unlink => exact hr.unlink _ _
    | erase => exact hr.erase _
  | link _ hc _ _ htop => exact hr.link hc (Bool.eq_false_iff.mpr fun h => hnest (htop h))
  | insert hf => exact hr.insert hf

/-- **The trees below two contexts without parents have nothing in common.** -/
theorem Listed.eq_of_below (hl : o.Listed) {t u : ContextId} (ht : o.parent? t = none)
    (hu : o.parent? u = none) (hbelow : o.Below t c) (hbelow' : o.Below u c) : t = u := by
  have hroot : ∀ {a b : ContextId}, o.parent? b = none → o.Below a b → b = a := by
    intro a b hb hab
    rcases Relation.ReflTransGen.cases_tail hab with e | ⟨_, _, hchild⟩
    · exact e
    · exact absurd hchild (hl.not_child_of_root hb)
  rcases hl.below_total hbelow hbelow' with h | h
  · exact (hroot hu h).symm
  · exact hroot ht h

end Outline

/-! ## 2. Graphs -/

namespace Graph

open Outline

/-- **Children name the parent that lists them, and tops are below nothing.** -/
structure Forest (g : Graph) : Prop where
  tidy : g.contexts.Tidy
  listed : g.outline.Listed
  rooted : g.outline.Rooted

variable {g : Graph} {c : ContextId}

/-- A top is below nothing. -/
theorem Forest.parent?_top (hg : g.Forest) {t : TopId} (ht : g.IsTop t) : g.parent? t.context = none := by
  obtain ⟨data, hdata, htop⟩ := isTop_iff.mp ht
  have hform : g.outline.context t.context = some data.form := outline_context.mpr ⟨data, hdata, rfl⟩
  rw [parent?_eq, parent?_of_context hform]
  exact (hg.rooted _ _ hform htop).1

/-- Where the nearest top has no parent, the way up ends in the top. -/
theorem lineageWithin_of_top {t : TopId} (hroot : g.parent? t.context = none) {n : Nat}
    (hc : (g.lineageWithin n c).findSome? g.top? = some t) :
    ∃ below, g.lineageWithin n c = below ++ [t.context] ∧ ∀ x ∈ below, g.top? x = none := by
  induction n generalizing c with
  | zero => cases hc
  | succ n ih =>
    unfold lineageWithin at hc ⊢
    rw [List.findSome?_cons] at hc
    cases htop : g.top? c with
    | some t' =>
      rw [htop] at hc
      cases hc
      have hself := (isTop_of_top? htop).1
      rw [← hself, hroot]
      exact ⟨[], rfl, fun _ hx => absurd hx List.not_mem_nil⟩
    | none =>
      rw [htop] at hc
      cases hp : g.parent? c with
      | none =>
        rw [hp] at hc
        cases hc
      | some p =>
        rw [hp] at hc
        obtain ⟨below, hline, hbelow⟩ := ih hc
        refine ⟨c :: below, ?_, List.forall_mem_cons.mpr ⟨htop, hbelow⟩⟩
        dsimp only
        rw [hline, List.cons_append]

theorem lineage_of_topOf? {t : TopId} (hroot : g.parent? t.context = none)
    (hc : g.topOf? c = some t) :
    ∃ below, g.lineage c = below ++ [t.context] ∧ ∀ x ∈ below, g.top? x = none :=
  lineageWithin_of_top hroot hc

end Graph

/-! ## 3. Sequences of calls -/

namespace Workspace

open ScopeGraph.Graph Outline

/-- What every call keeps that puts no top below another context. -/
structure Forest (w : Workspace) : Prop where
  wired : w.Wired
  nested : w.graph.outline.Nested
  rooted : w.graph.outline.Rooted

theorem Grows.rooted {nest : Prop} {w w' : Workspace} (hnest : ¬ nest) (h : w.Grows nest w')
    (hw : w.graph.outline.Rooted) : w'.graph.outline.Rooted :=
  kept_of_steps (Growing.rooted hnest) h hw

theorem Forest.call {w : Workspace} (hw : w.Forest) {call : Call}
    (hnest : w.nestsTop call = false) : (call.apply w).Forest := by
  have hgrows := grows_call call hw.wired hw.nested
  exact ⟨wired_call hw.wired call, hgrows.nested hw.nested,
    hgrows.rooted (Bool.eq_false_iff.mp hnest) hw.rooted⟩

theorem forest_run {w : Workspace} {calls : List Call} (hw : w.Forest)
    (hnest : w.NestsNoTop calls) : (w.run calls).graph.Forest := by
  induction calls generalizing w with
  | nil => exact ⟨hw.wired.tidy, hw.nested.listed, hw.rooted⟩
  | cons call rest ih => exact ih (hw.call hnest.1) hnest.2

theorem forest_empty (limits : Limits) : (empty limits).Forest :=
  ⟨wired_empty limits, nested_empty limits, nofun⟩

/-- **Tops are roots in every state**, as long as none was put below another context. A
    live top has no parent and is in no list of children; the top that a context belongs
    to is the last context on its way up; and the trees below two tops have nothing in
    common. -/
theorem tops_are_roots (limits : Limits) (calls : List Call)
    (hnest : (empty limits).NestsNoTop calls) :
    let g := ((empty limits).run calls).graph
    (∀ t, g.IsTop t → g.parent? t.context = none ∧ ∀ p, t.context ∉ g.children p) ∧
      (∀ c t, g.topOf? c = some t → g.IsTop t ∧ (g.lineage c).getLast? = some t.context) ∧
      ∀ t u, g.IsTop t → g.IsTop u → t ≠ u →
        ∀ c, g.outline.Below t.context c → ¬ g.outline.Below u.context c := by
  intro g
  have hforest : g.Forest := forest_run (forest_empty limits) hnest
  have hroot : ∀ t, g.IsTop t → g.outline.parent? t.context = none := by
    intro t ht
    rw [← parent?_eq]
    exact hforest.parent?_top ht
  refine ⟨fun t ht => ⟨hforest.parent?_top ht, fun p hmem => ?_⟩, fun c t hc => ?_,
    fun t u ht hu hne c hbelow hbelow' => hne ?_⟩
  · exact hforest.listed.not_child_of_root (hroot t ht) (mem_children_iff.mp hmem)
  · obtain ⟨x, _, htop⟩ := List.exists_of_findSome?_eq_some hc
    have ht := (isTop_of_top? htop).2
    obtain ⟨below, hline, _⟩ := lineage_of_topOf? (hforest.parent?_top ht) hc
    exact ⟨ht, by rw [hline, List.getLast?_concat]⟩
  · have hsame := hforest.listed.eq_of_below (hroot t ht) (hroot u hu) hbelow hbelow'
    obtain ⟨c⟩ := t
    exact congrArg TopId.mk hsame

/-- Two files. A context of the first one is moved below the second, and a context below
    it goes with it. -/
def movedScopes : List Call :=
  [.change (.createTop ⟨0⟩ {}), .change (.createTop ⟨1⟩ {}), .change (.createContext ⟨0, 0⟩ {}),
    .change (.createContext ⟨2, 0⟩ {}), .change (.createAnonymous ⟨3, 0⟩ {}),
    .change (.addChild ⟨1, 0⟩ ⟨2, 0⟩)]

/-- The anonymous context in what was moved belongs to the second file, and the context
    that was moved is not below the first one any more. -/
theorem tops_are_roots_moved :
    let g := ((empty {}).run movedScopes).graph
    (empty {}).NestsNoTop movedScopes ∧ g.topOf? ⟨4, 0⟩ = some ⟨⟨1, 0⟩⟩ ∧
      (g.lineage ⟨4, 0⟩).getLast? = some ⟨1, 0⟩ ∧ g.outline.Below ⟨1, 0⟩ ⟨2, 0⟩ ∧
      ¬ g.outline.Below ⟨0, 0⟩ ⟨2, 0⟩ := by
  intro g
  have hnest : (empty {}).NestsNoTop movedScopes := by decide
  obtain ⟨_, hlast, hapart⟩ := tops_are_roots {} movedScopes hnest
  have hbelow : g.outline.Below ⟨1, 0⟩ ⟨2, 0⟩ := .single (mem_children_iff.mp (by decide))
  refine ⟨hnest, by decide, (hlast ⟨4, 0⟩ ⟨⟨1, 0⟩⟩ (by decide)).2, hbelow, ?_⟩
  exact hapart ⟨⟨1, 0⟩⟩ ⟨⟨0, 0⟩⟩ (by decide) (by decide) (by decide) _ hbelow

/-- The second of two files is put below the first one: it is a top with a parent and in
    a list of children, a context in it does not end its way up in its top, and what is
    below the one is below the other. -/
theorem nested_top :
    let g := ((empty {}).run [.change (.createTop ⟨0⟩ {}), .change (.createTop ⟨1⟩ {}),
      .change (.addChild ⟨0, 0⟩ ⟨1, 0⟩), .change (.createContext ⟨1, 0⟩ {})]).graph
    g.IsTop ⟨⟨0, 0⟩⟩ ∧ g.IsTop ⟨⟨1, 0⟩⟩ ∧ g.parent? ⟨1, 0⟩ = some ⟨0, 0⟩ ∧
      ⟨1, 0⟩ ∈ g.children ⟨0, 0⟩ ∧ g.topOf? ⟨2, 0⟩ = some ⟨⟨1, 0⟩⟩ ∧
      (g.lineage ⟨2, 0⟩).getLast? = some ⟨0, 0⟩ ∧ ⟨2, 0⟩ ∈ g.subtree ⟨0, 0⟩ ∧
      ⟨2, 0⟩ ∈ g.subtree ⟨1, 0⟩ := by
  decide

end Workspace

end ScopeGraph
