/-
  File:      ScopeGraph/Proofs/LocalIndex.lean
  Subject:   What the lists and indices of contexts hold after every sequence of
             calls.

  A context lists its own declarations and indexes, by name, those that propagate
  to it. Nothing is ever missing there. There is too much in one case only: an
  anonymous context that goes does not take back what it passed on, so names that
  came to it from an anonymous context inside it stay with its parent.

  * `Workspace.local_index_complete`: lists are exact, and no index misses a name;
  * `Workspace.local_index_exact`: no index has a name too many, as long as no call
    strands names;
  * `Workspace.local_index_stranded`: the smallest sequence of calls that does.
-/
import ScopeGraph.Proofs.Tending

namespace ScopeGraph

/-! ## 1. Names come to an index once -/

/-- A declaration has one start, so its name comes to a context at most once. -/
theorem Outline.Records.nodup_reaching {o : Outline} {P : Multiset Origin} (h : o.Records P)
    (R : ContextId → ContextId → Prop) (a : ContextId) : (reaching R P a).Nodup := by
  classical
  unfold reaching
  refine Multiset.Nodup.map_on (fun x hx y hy hxy => ?_) (h.nodup.filter _)
  have hx' := (h.mem x).mp (Multiset.mem_of_mem_filter hx)
  have hy' := (h.mem y).mp (Multiset.mem_of_mem_filter hy)
  rw [hxy, hy'] at hx'
  exact (Option.some.inj hx').symm

namespace Graph

open Outline

variable {g : Graph} {s : Multiset Origin} {a c : ContextId} {d : DeclId} {n : Ident}

theorem start?_eq_some : g.outline.start? d = some (c, n, d) ↔
    ∃ data, g.declaration? d = some data ∧ data.name = n ∧ data.context = some c := by
  unfold start?
  rw [outline_declaration_eq]
  cases hd : g.declaration? d with
  | none => exact ⟨nofun, fun ⟨_, h, _⟩ => nomatch h⟩
  | some data =>
    constructor
    · intro h
      obtain ⟨x, hx, he⟩ := Option.map_eq_some_iff.mp h
      cases he
      exact ⟨data, rfl, rfl, hx⟩
    · rintro ⟨data', he, rfl, hc⟩
      cases he
      exact Option.map_eq_some_iff.mpr ⟨c, hc, rfl⟩

theorem indexed_of_context? {data : Context} (h : g.context? a = some data) (n : Ident) :
    g.indexed a n = data.locals.index.find n := by
  unfold indexed
  rw [h]
  rfl

theorem live_of_indexed (h : d ∈ g.indexed a n) : ∃ data, g.context? a = some data := by
  unfold indexed at h
  cases ha : g.context? a with
  | none =>
    rw [ha] at h
    exact absurd h List.not_mem_nil
  | some data => exact ⟨data, rfl⟩

namespace Kempt

variable (h : g.Kempt s)

include h

theorem mem_localDeclarations : d ∈ g.localDeclarations c ↔
    ∃ data, g.declaration? d = some data ∧ data.context = some c := by
  rw [mem_localDeclarations_iff]
  constructor
  · rintro ⟨f, hf, hmem⟩
    obtain ⟨fd, hfd, hc⟩ := h.consistent.holds.own hf hmem
    obtain ⟨data, hdata, rfl⟩ := outline_declaration.mp hfd
    exact ⟨data, hdata, hc⟩
  · rintro ⟨data, hdata, hc⟩
    exact h.consistent.holds.holder (outline_declaration.mpr ⟨data, hdata, rfl⟩) hc

/-- A declaration stands under a name as often as the name comes to the index. -/
theorem mem_indexed {data : Context} (ha : g.context? a = some data) :
    d ∈ g.indexed a n ↔ (n, d) ∈ data.locals.names := by
  obtain ⟨_, _, hshown⟩ := h.shown
  rw [indexed_of_context? ha]
  exact (Multimap.mem_pairs (hshown.keys ha)).symm

/-- **An index holds what is declared in every context that propagates to it.** -/
theorem mem_indexed_of_declared {data : Declaration} (hd : g.declaration? d = some data)
    (hc : data.context = some c) (ha : a ∈ g.propagationChain c) : d ∈ g.indexed a data.name := by
  obtain ⟨hreach, hlive⟩ := (mem_propagationChain h.consistent.tree).mp ha
  obtain ⟨target, htarget⟩ := Option.isSome_iff_exists.mp hlive
  rw [h.mem_indexed htarget]
  exact h.mem_names htarget (start?_eq_some.mpr ⟨data, hd, rfl, hc⟩) hreach

end Kempt

/-- **Without a surplus an index holds nothing else**, and each name once. -/
theorem Kempt.indexed_exact (h : g.Kempt 0) (hmem : d ∈ g.indexed a n) :
    (∃ data c, g.declaration? d = some data ∧ data.name = n ∧ data.context = some c ∧
      a ∈ g.propagationChain c) ∧ (g.indexed a n).count d = 1 := by
  obtain ⟨data, ha⟩ := live_of_indexed hmem
  have hname := (h.mem_indexed ha).mp hmem
  obtain ⟨P, hP, hshown⟩ := h.shown
  rw [Multiset.add_zero] at hshown
  have hnames := hshown.names ha
  constructor
  · rw [hnames] at hname
    obtain ⟨c, hstart, hreach⟩ := mem_reaching.mp hname
    obtain ⟨decl, hd, hn, hc⟩ := start?_eq_some.mp ((hP.mem _).mp hstart)
    refine ⟨decl, c, hd, hn, hc, (mem_propagationChain h.consistent.tree).mpr ⟨hreach, ?_⟩⟩
    rw [ha]
    rfl
  · have hnodup : data.locals.names.Nodup := by
      rw [hnames]
      exact hP.nodup_reaching _ a
    rw [indexed_of_context? ha, ← Multimap.count_pairs (hshown.keys ha)]
    exact Multiset.count_eq_one_of_mem hnodup hname

end Graph

/-! ## 2. Sequences of calls -/

namespace Workspace

/-- A file, a context in it and an anonymous one inside that, both of which
    propagate. Of two declarations in the anonymous one the second moves before the
    first and gets another name; the outer context is put below another one of the
    file. -/
def movedBlock : List Call :=
  [.change (.createTop ⟨0⟩ {}), .change (.createContext ⟨0, 0⟩ {}),
    .change (.createAnonymous ⟨1, 0⟩ {}), .change (.setPropagates ⟨1, 0⟩ true),
    .change (.setPropagates ⟨2, 0⟩ true),
    .change (.declare ⟨2, 0⟩ "y" { start := ⟨3, 0⟩, stop := ⟨3, 1⟩ } .ordinary),
    .change (.declare ⟨2, 0⟩ "x" { start := ⟨5, 0⟩, stop := ⟨5, 1⟩ } .ordinary),
    .change (.setRange ⟨1, 0⟩ { start := ⟨1, 0⟩, stop := ⟨1, 1⟩ }),
    .change (.rename ⟨1, 0⟩ "z"), .change (.createContext ⟨0, 0⟩ {}),
    .change (.addChild ⟨3, 0⟩ ⟨1, 0⟩)]

/-- **Lists are exact, and no index misses a name.** After every sequence of
    calls, the list of a context has no declaration twice, stands in the order of
    starts, and holds just the declarations whose context it is; a declaration's
    context is there; and every context to which a declaration's context
    propagates has the declaration in its index, under its name. -/
theorem local_index_complete (limits : Limits) (calls : List Call)
    (hfrees : (empty limits).FewFrees calls) :
    let g := ((empty limits).run calls).graph
    (∀ c, (g.localDeclarations c).Nodup ∧
      (g.localDeclarations c).Pairwise
        (fun d e => g.startOfDeclaration d ≤ g.startOfDeclaration e) ∧
      ∀ d, d ∈ g.localDeclarations c ↔
        ∃ data, g.declaration? d = some data ∧ data.context = some c) ∧
    (∀ d c c', d ∈ g.localDeclarations c → d ∈ g.localDeclarations c' → c = c') ∧
    ∀ d data c, g.declaration? d = some data → data.context = some c →
      (∃ holder, g.context? c = some holder) ∧
      ∀ a ∈ g.propagationChain c, d ∈ g.indexed a data.name := by
  intro g
  obtain ⟨s, hkept, _⟩ := kept_run hfrees
  have h : g.Kempt s := hkept.kempt
  refine ⟨fun c => ⟨Graph.nodup_localDeclarations h.consistent.holds c, h.sorted.declarations c, fun d =>
    h.mem_localDeclarations⟩, fun d c c' hc hc' => ?_, fun d data c hd hc =>
    ⟨h.consistent.exists_holder hd hc, fun a ha => h.mem_indexed_of_declared hd hc ha⟩⟩
  obtain ⟨data, hd, hc⟩ := h.mem_localDeclarations.mp hc
  obtain ⟨data', hd', hc'⟩ := h.mem_localDeclarations.mp hc'
  cases hd.symm.trans hd'
  exact Option.some.inj (hc.symm.trans hc')

/-- The renamed declaration stands first in its list, and the context to which all
    was moved finds it under its new name. -/
theorem local_index_complete_moved :
    let g := ((empty {}).run movedBlock).graph
    g.localDeclarations ⟨2, 0⟩ = [⟨1, 0⟩, ⟨0, 0⟩] ∧
      g.propagationChain ⟨2, 0⟩ = [⟨2, 0⟩, ⟨1, 0⟩, ⟨3, 0⟩] ∧ ⟨1, 0⟩ ∈ g.indexed ⟨3, 0⟩ "z" := by
  intro g
  have hexact := local_index_complete {} movedBlock (fewFrees_of_length (by decide))
  have hz : (g.declaration? ⟨1, 0⟩).map (fun data => (data.name, data.context)) =
      some ("z", some ⟨2, 0⟩) := by decide +kernel
  obtain ⟨data, hdata, he⟩ := Option.map_eq_some_iff.mp hz
  have hname : data.name = "z" := congrArg Prod.fst he
  refine ⟨by decide +kernel, by decide +kernel, ?_⟩
  rw [← hname]
  exact (hexact.2.2 _ _ _ hdata (congrArg Prod.snd he)).2 _ (by decide +kernel)

/-- **No index has a name too many**, as long as no call strands names: after such
    a sequence of calls a declaration stands in an index under its own name, once,
    and its context propagates to that of the index. -/
theorem local_index_exact (limits : Limits) (calls : List Call)
    (hfrees : (empty limits).FewFrees calls) (hstrands : (empty limits).StrandsNoNames calls) :
    let g := ((empty limits).run calls).graph
    ∀ a n d, d ∈ g.indexed a n →
      (∃ data c, g.declaration? d = some data ∧ data.name = n ∧ data.context = some c ∧
        a ∈ g.propagationChain c) ∧ (g.indexed a n).count d = 1 := by
  intro g a n d hmem
  obtain ⟨s, hkept, hzero⟩ := kept_run hfrees
  have hnone := hzero hstrands
  subst hnone
  exact hkept.kempt.indexed_exact hmem

/-- Two anonymous contexts of a file, both of which propagate and declare `x`. The
    first one goes. -/
def twoBlocks : List Call :=
  [.change (.createTop ⟨0⟩ {}), .change (.createAnonymous ⟨0, 0⟩ {}),
    .change (.createAnonymous ⟨0, 0⟩ {}), .change (.setPropagates ⟨1, 0⟩ true),
    .change (.setPropagates ⟨2, 0⟩ true), .change (.declare ⟨1, 0⟩ "x" {} .ordinary),
    .change (.declare ⟨2, 0⟩ "x" {} .ordinary), .change (.deleteContext ⟨1, 0⟩)]

/-- The deleted context took back what was declared in it, and the file keeps what is
    declared in the other one. -/
theorem local_index_exact_blocks :
    let g := ((empty {}).run twoBlocks).graph
    g.indexed ⟨0, 0⟩ "x" = [⟨1, 0⟩] ∧ (∃ data c, g.declaration? ⟨1, 0⟩ = some data ∧
      data.name = "x" ∧ data.context = some c ∧ ⟨0, 0⟩ ∈ g.propagationChain c) ∧
      (g.indexed ⟨0, 0⟩ "x").count ⟨1, 0⟩ = 1 := by
  have hexact := local_index_exact {} twoBlocks (fewFrees_of_length (by decide)) (by decide +kernel)
  exact ⟨by decide +kernel, hexact _ _ _ (by decide +kernel)⟩

/-- An anonymous context inside another one of a file, both of which propagate. The
    outer one goes. -/
def innerBlock : List Call :=
  [.change (.createTop ⟨0⟩ {}), .change (.createAnonymous ⟨0, 0⟩ {}),
    .change (.createAnonymous ⟨1, 0⟩ {}), .change (.setPropagates ⟨1, 0⟩ true),
    .change (.setPropagates ⟨2, 0⟩ true), .change (.declare ⟨2, 0⟩ "x" {} .ordinary),
    .change (.deleteContext ⟨1, 0⟩)]

/-- **A stranded name stays.** The file still finds the declaration in the inner
    context, which nothing joins to the file any more. -/
theorem local_index_stranded :
    let g := ((empty {}).run innerBlock).graph
    g.indexed ⟨0, 0⟩ "x" = [⟨0, 0⟩] ∧
      (g.declaration? ⟨0, 0⟩).map (·.context) = some (some ⟨2, 0⟩) ∧
      g.propagationChain ⟨2, 0⟩ = [⟨2, 0⟩] ∧ ¬ (empty {}).StrandsNoNames innerBlock := by
  refine ⟨by decide +kernel, by decide +kernel, by decide +kernel, by decide +kernel⟩

end Workspace

end ScopeGraph
