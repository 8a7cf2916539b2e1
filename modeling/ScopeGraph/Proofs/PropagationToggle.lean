/-
  File:      ScopeGraph/Proofs/PropagationToggle.lean
  Subject:   Propagation switched on and off again.

  Switched on, a context gives all names of its index to its parent and to all that
  see the parent's names; switched off, it takes them back one by one. In between
  the names stand after what was there, key by key, and the ones that are taken
  back first need not be the ones that came last.

  * `Multimap.stripIn`: the entries without some pairs. It does not see such pairs
    come or go, so that it gives back what was there before them, in its order
    (`Locals.takeBack_giveOut`);
  * `Workspace.toggle_restores`: the whole workspace is as before.
-/
import ScopeGraph.Proofs.IndexShape
import ScopeGraph.Proofs.NameFlow

namespace ScopeGraph

/-! ## 1. Entries without some pairs -/

namespace Multimap

variable {κ α : Type} [DecidableEq κ] [DecidableEq α] {absent : List (κ × α)}

/-- The entries without some pairs; a key that is left without a value goes. -/
def stripIn (absent : List (κ × α)) : List (κ × List α) → List (κ × List α)
  | [] => []
  | (k, vs) :: rest =>
    let left := vs.filter fun a => (k, a) ∉ absent
    if left = [] then stripIn absent rest else (k, left) :: stripIn absent rest

theorem stripIn_insertIn {k : κ} {a : α} (h : (k, a) ∈ absent) (es : List (κ × List α)) :
    stripIn absent (insertIn k a es) = stripIn absent es := by
  induction es with
  | nil => simp [insertIn, stripIn, h]
  | cons e rest ih =>
    obtain ⟨k', vs⟩ := e
    by_cases hk : k' = k
    · subst hk
      simp [insertIn, stripIn, h]
    · simp [insertIn, stripIn, hk, ih]

theorem stripIn_eraseIn {k : κ} {a : α} (h : (k, a) ∈ absent) (es : List (κ × List α)) :
    stripIn absent (eraseIn k a es) = stripIn absent es := by
  induction es with
  | nil => rfl
  | cons e rest ih =>
    obtain ⟨k', vs⟩ := e
    by_cases hk : k' = k
    · subst hk
      have hleft : ((vs.erase a).filter fun b => decide ((k', b) ∉ absent)) =
          vs.filter fun b => decide ((k', b) ∉ absent) := by
        rw [← List.erase_filter, List.erase_of_not_mem]
        simp [h]
      by_cases ha : a ∈ vs
      · by_cases hempty : vs.erase a = []
        · rw [hempty, List.filter_nil] at hleft
          simp only [eraseIn, stripIn, if_pos ha, hempty, ← hleft, if_true]
        · simp only [eraseIn, stripIn, if_pos ha, if_neg hempty, hleft, if_true]
      · simp [eraseIn, stripIn, ha]
    · simp [eraseIn, stripIn, hk, ih]

omit [DecidableEq κ] [DecidableEq α] in
theorem mem_pairs_iff {m : Multimap κ α} {n : κ × α} :
    n ∈ m.pairs ↔ ∃ e ∈ m.entries, e.1 = n.1 ∧ n.2 ∈ e.2 := by
  unfold pairs
  simp only [List.mem_flatMap, List.mem_map, Prod.ext_iff]
  constructor
  · rintro ⟨e, he, a, ha, hk, rfl⟩
    exact ⟨e, he, hk, ha⟩
  · rintro ⟨e, he, hk, ha⟩
    exact ⟨e, he, n.2, ha, hk, rfl⟩

/-- Where the pairs are absent, nothing goes. -/
theorem Neat.stripIn_eq {m : Multimap κ α} (hm : m.Neat) (h : ∀ n ∈ absent, n ∉ m.pairs) :
    stripIn absent m.entries = m.entries := by
  have hentries : ∀ e ∈ m.entries, ∀ a ∈ e.2, (e.1, a) ∉ absent :=
    fun e he a ha habsent => h _ habsent (mem_pairs_iff.mpr ⟨e, he, rfl, ha⟩)
  have hvalues := hm.values
  generalize m.entries = es at hentries hvalues
  induction es with
  | nil => rfl
  | cons e rest ih =>
    obtain ⟨k, vs⟩ := e
    rw [List.forall_mem_cons] at hentries hvalues
    have hall : (vs.filter fun a => decide ((k, a) ∉ absent)) = vs :=
      List.filter_eq_self.mpr fun a ha => decide_eq_true (hentries.1 a ha)
    simp only [stripIn, hall, if_neg hvalues.1, ih hentries.2 hvalues.2]

end Multimap

/-! ## 2. Names given out and taken back -/

namespace Locals

variable {names : List (Ident × DeclId)} {l l' l'' : Locals}

/-- What is held differs in some names of the index at most. -/
structure Varies (names : List (Ident × DeclId)) (l l' : Locals) : Prop where
  ordered : l'.ordered = l.ordered
  neat : l'.index.Neat
  others : Multimap.stripIn names l'.index.entries = Multimap.stripIn names l.index.entries

namespace Varies

theorem addNames (h : Varies names l l') {part : List (Ident × DeclId)} (hpart : part ⊆ names) :
    Varies names l (l'.addNames part) := by
  unfold Locals.addNames
  induction part generalizing l' with
  | nil => exact h
  | cons n rest ih =>
    obtain ⟨hn, hrest⟩ := List.cons_subset.mp hpart
    have hone : Varies names l (l'.addName n.1 n.2) :=
      ⟨h.ordered, h.neat.insert n.1 n.2, (Multimap.stripIn_insertIn hn _).trans h.others⟩
    exact ih hone hrest

theorem dropNames (h : Varies names l l') {part : List (Ident × DeclId)} (hpart : part ⊆ names) :
    Varies names l (l'.dropNames part) := by
  unfold Locals.dropNames
  induction part generalizing l' with
  | nil => exact h
  | cons n rest ih =>
    obtain ⟨hn, hrest⟩ := List.cons_subset.mp hpart
    have hone : Varies names l (l'.dropName n.1 n.2) :=
      ⟨h.ordered, h.neat.erase n.1 n.2, (Multimap.stripIn_eraseIn hn _).trans h.others⟩
    exact ih hone hrest

/-- **Where the names are as often as before, all is as before**, if they were not
    there. -/
theorem eq_of_names (h : Varies names l l') (hl : l.index.Neat)
    (habsent : ∀ n ∈ names, n ∉ l.index.pairs) (hnames : l'.names = l.names) : l' = l := by
  have habsent' : ∀ n ∈ names, n ∉ l'.index.pairs := by
    intro n hn hmem
    have hmem' : n ∈ l'.names := hmem
    rw [hnames] at hmem'
    exact habsent n hn hmem'
  have hentries := h.others
  rw [h.neat.stripIn_eq habsent', hl.stripIn_eq habsent] at hentries
  obtain ⟨ordered, ⟨entries⟩⟩ := l
  obtain ⟨ordered', ⟨entries'⟩⟩ := l'
  simp only [Locals.mk.injEq, Multimap.mk.injEq]
  exact ⟨h.ordered, hentries⟩

end Varies

/-- What was given out is taken back, any number of times. -/
theorem varies_takeBack (h : Varies names l l') (n : Nat) :
    Varies names l ((dropNames · names)^[n] ((addNames · names)^[n] l')) ∧
      ((dropNames · names)^[n] ((addNames · names)^[n] l')).names = l'.names := by
  induction n generalizing l' with
  | zero => exact ⟨h, rfl⟩
  | succ n ih =>
    obtain ⟨hvaries, hnames⟩ := ih (h.addNames (List.Subset.refl names))
    rw [Function.iterate_succ_apply', Function.iterate_succ_apply]
    refine ⟨hvaries.dropNames (List.Subset.refl names), ?_⟩
    rw [names_dropNames hvaries.neat.keys, hnames, names_addNames, Multiset.add_sub_cancel_right]

/-- **Names that were not there are given out and taken back without a trace**, any
    number of times. -/
theorem takeBack_giveOut (hl : l.index.Neat) (habsent : ∀ n ∈ names, n ∉ l.index.pairs) (n : Nat) :
    (dropNames · names)^[n] ((addNames · names)^[n] l) = l := by
  obtain ⟨hvaries, hnames⟩ := varies_takeBack ⟨rfl, hl, rfl⟩ n
  exact hvaries.eq_of_names hl habsent hnames

end Locals

/-! ## 3. Graphs -/

namespace Graph

variable {g g' : Graph} {c p x : ContextId} {data : Context}

theorem live_of_mem_propagationAlong {l : List ContextId} (hx : x ∈ g.propagationAlong l) :
    ∃ data, g.context? x = some data := by
  induction l with
  | nil => cases hx
  | cons y rest ih =>
    unfold propagationAlong at hx
    cases hy : g.context? y with
    | none =>
      rw [hy] at hx
      cases hx
    | some data =>
      rw [hy] at hx
      rcases List.mem_cons.mp hx with rfl | hx
      · exact ⟨data, hy⟩
      · split at hx
        · exact ih hx
        · cases hx

/-- Names go the same way up where what they pass propagates alike. -/
theorem propagationAlong_congr (hlive : ∀ x, (g'.context? x).isSome = (g.context? x).isSome)
    {l : List ContextId} (h : ∀ x ∈ g.propagationAlong l,
      (g'.context? x).map (·.propagates) = (g.context? x).map (·.propagates)) :
    g'.propagationAlong l = g.propagationAlong l := by
  induction l with
  | nil => rfl
  | cons x rest ih =>
    unfold propagationAlong at h ⊢
    cases hx : g.context? x with
    | none =>
      have hx' : g'.context? x = none := by
        have hsome := hlive x
        rw [hx] at hsome
        exact Option.not_isSome_iff_eq_none.mp (Bool.eq_false_iff.mp hsome)
      rw [hx']
    | some data =>
      rw [hx] at h
      have hself := h x List.mem_cons_self
      rw [hx] at hself
      obtain ⟨data', hx', hpropagates⟩ := Option.map_eq_some_iff.mp hself
      simp only [hx', hpropagates]
      cases hon : data.propagates with
      | false => rfl
      | true =>
        simp only [hon, if_true] at h ⊢
        rw [ih fun y hy => h y (List.mem_cons_of_mem _ hy)]

theorem propagationChain_congr (hshape : SameShape g g') (hnodes : SameNodes g g')
    (h : ∀ x ∈ g.propagationChain p,
      (g'.context? x).map (·.propagates) = (g.context? x).map (·.propagates)) :
    g'.propagationChain p = g.propagationChain p := by
  unfold propagationChain
  rw [hshape.lineage]
  exact propagationAlong_congr hnodes.contexts.isSome_get? h

/-- The way up from the parent is the same if it does not come by the context that is
    switched. -/
theorem propagationChain_switch {on : Bool} (h : c ∉ g.propagationChain p) :
    (g.modifyContext c ({ · with propagates := on })).propagationChain p =
      g.propagationChain p := by
  have hsame : SameRegistry g (g.modifyContext c ({ · with propagates := on })) :=
    View.Same.modifyContext g c fun _ => rfl
  refine propagationChain_congr hsame.shape hsame.nodes fun x hx => ?_
  rw [context?_modifyContext, if_neg]
  exact fun e => h (e ▸ hx)

theorem propagationChain_modifyAll {f : Locals → Locals} (hf : ∀ l, (f l).ordered = l.ordered)
    (cs : List ContextId) : (g.modifyAll f cs).propagationChain p = g.propagationChain p := by
  have hsame : SameRegistry g (g.modifyAll f cs) := .modifyAll g hf cs
  exact propagationChain_congr hsame.shape hsame.nodes fun x _ =>
    map_context?_modifyAll (fun _ => rfl) cs x

theorem modifyAll_eq (f : Locals → Locals) (cs : List ContextId) :
    g.modifyAll f cs = { g with contexts := (g.modifyAll f cs).contexts } := by
  unfold modifyAll
  induction cs generalizing g with
  | nil => rfl
  | cons c rest ih =>
    rw [List.foldl_cons, ih]
    rfl

theorem sharedNames_eq (hc : g.context? c = some data) (hon : data.propagates = true)
    (hp : data.parent = some p) : g.sharedNames c = some (p, data.locals.index.pairs) := by
  unfold sharedNames
  simp only [hc, hon, if_true, hp, Option.map_some]

theorem mem_indexed (hneat : g.Holding fun l => l.index.Neat) (hx : g.context? x = some data)
    {n : Ident × DeclId} : n ∈ data.locals.index.pairs ↔ n.2 ∈ g.indexed x n.1 := by
  unfold indexed
  rw [hx]
  exact Multimap.mem_pairs (hneat x data hx).keys

/-- The contexts that see the names of a context's parent once it propagates. -/
def wayUp (g : Graph) (c p : ContextId) : List ContextId :=
  (g.modifyContext c ({ · with propagates := true })).propagationChain p

/-- A context that does not propagate, and has no name that is already where its
    parent's names are seen. -/
structure Withheld (g : Graph) (c p : ContextId) (data : Context) : Prop where
  context : g.context? c = some data
  off : data.propagates = false
  parent : data.parent = some p
  neat : g.Holding fun l => l.index.Neat
  absent : ∀ a ∈ g.propagationChain p, ∀ n ∈ data.locals.index.pairs, n.2 ∉ g.indexed a n.1

namespace Withheld

variable (h : g.Withheld c p data)

include h

/-- A way up that comes by the context itself has nothing to carry. -/
theorem wayUp_cases : data.locals.index.pairs = [] ∨
    g.wayUp c p = g.propagationChain p ∧ c ∉ g.propagationChain p := by
  by_cases hmem : c ∈ g.propagationChain p
  · refine .inl (List.eq_nil_iff_forall_not_mem.mpr fun n hn => ?_)
    exact h.absent c hmem n hn ((mem_indexed h.neat h.context).mp hn)
  · exact .inr ⟨propagationChain_switch hmem, hmem⟩

/-- The context does not give names to itself. -/
theorem own : (Locals.addNames · data.locals.index.pairs)^[(g.wayUp c p).count c] data.locals =
    data.locals := by
  rcases h.wayUp_cases with hnone | ⟨hway, hnot⟩
  · refine Function.iterate_fixed ?_ _
    rw [hnone]
    rfl
  · rw [hway, List.count_eq_zero_of_not_mem hnot]
    rfl

/-- What is given to a context is taken back from it. -/
theorem takeBack {old : Context} (hx : g.context? x = some old) :
    (Locals.dropNames · data.locals.index.pairs)^[(g.wayUp c p).count x]
      ((Locals.addNames · data.locals.index.pairs)^[(g.wayUp c p).count x] old.locals) =
        old.locals := by
  rcases h.wayUp_cases with hnone | ⟨hway, _⟩
  · refine Locals.takeBack_giveOut (h.neat x old hx) (fun n hn => ?_) _
    rw [hnone] at hn
    exact absurd hn List.not_mem_nil
  · by_cases hmem : x ∈ g.wayUp c p
    · refine Locals.takeBack_giveOut (h.neat x old hx) (fun n hn hold => ?_) _
      exact h.absent x (hway ▸ hmem) n hn ((mem_indexed h.neat hx).mp hold)
    · rw [List.count_eq_zero_of_not_mem hmem]
      rfl

theorem switchOn_eq : g.switchOn c = (g.modifyContext c ({ · with propagates := true })).modifyAll
    (·.addNames data.locals.index.pairs) (g.wayUp c p) := by
  have hc : (g.modifyContext c ({ · with propagates := true })).context? c =
      some { data with propagates := true } := by
    rw [context?_modifyContext, if_pos rfl, h.context, Option.map_some]
  unfold switchOn shareWithParent
  rw [sharedNames_eq hc rfl h.parent]
  rfl

theorem context?_switchOn (x : ContextId) : (g.switchOn c).context? x =
    (g.context? x).map fun old => { old with
      propagates := if x = c then true else old.propagates
      locals := (Locals.addNames · data.locals.index.pairs)^[(g.wayUp c p).count x] old.locals } := by
  rw [h.switchOn_eq, context?_modifyAll_count, context?_modifyContext]
  split
  · rw [Option.map_map]
    rfl
  · rfl

theorem context?_switchOn_self :
    (g.switchOn c).context? c = some { data with propagates := true } := by
  rw [h.context?_switchOn, h.context, Option.map_some, if_pos rfl, h.own]

theorem switchOff_eq : (g.switchOn c).switchOff c = ((g.switchOn c).modifyAll
    (·.dropNames data.locals.index.pairs) (g.wayUp c p)).modifyContext c
      ({ · with propagates := false }) := by
  have hway : (g.switchOn c).propagationChain p = g.wayUp c p := by
    rw [h.switchOn_eq, propagationChain_modifyAll (Locals.ordered_addNames _)]
    rfl
  unfold switchOff withdrawFromParent
  rw [sharedNames_eq h.context?_switchOn_self rfl h.parent]
  show (modifyAll _ _ ((g.switchOn c).propagationChain p)).modifyContext c _ = _
  rw [hway]

theorem context?_switchOff (x : ContextId) :
    ((g.switchOn c).switchOff c).context? x = g.context? x := by
  rw [h.switchOff_eq, context?_modifyContext, context?_modifyAll_count, h.context?_switchOn]
  cases hx : g.context? x with
  | none => split <;> rfl
  | some old =>
    simp only [Option.map_some, h.takeBack hx]
    split
    · next hxc =>
      subst hxc
      cases hx.symm.trans h.context
      rw [← h.off]
    · rfl

/-- **A context that is switched on and off again leaves the graph as it was.** -/
theorem switchOff_switchOn : (g.switchOn c).switchOff c = g := by
  have hnodes : SameNodes g ((g.switchOn c).switchOff c) :=
    (SameRegistry.switchOn g c).nodes.trans (SameRegistry.switchOff _ c).nodes
  have hrest : (g.switchOn c).switchOff c =
      { g with contexts := ((g.switchOn c).switchOff c).contexts } := by
    rw [h.switchOff_eq, h.switchOn_eq, modifyAll_eq, modifyAll_eq]
    rfl
  rw [hrest, hnodes.contexts.eq_of_get? h.context?_switchOff]

/-- In between, all who see the parent's names see the names of the context. -/
theorem mem_indexed_switchOn {a : ContextId} (ha : a ∈ g.propagationChain p) {n : Ident × DeclId}
    (hn : n ∈ data.locals.index.pairs) : n.2 ∈ (g.switchOn c).indexed a n.1 := by
  obtain ⟨old, hold⟩ := live_of_mem_propagationAlong ha
  have hneat : (g.switchOn c).Holding fun l => l.index.Neat := by
    refine Holding.shareWithParent (h.neat.modifyContext c fun data hdata => ?_)
      Locals.stable_neat c
    exact hdata
  have hway : g.wayUp c p = g.propagationChain p := by
    rcases h.wayUp_cases with hnone | ⟨hway, _⟩
    · rw [hnone] at hn
      exact absurd hn List.not_mem_nil
    · exact hway
  have hcount : 0 < (g.wayUp c p).count a := List.count_pos_iff.mpr (hway ▸ ha)
  have hnow := h.context?_switchOn a
  rw [hold, Option.map_some] at hnow
  refine (mem_indexed hneat hnow).mp ?_
  show n ∈ Locals.names _
  obtain ⟨k, hk⟩ := Nat.exists_eq_succ_of_ne_zero hcount.ne'
  dsimp only
  rw [hk, Function.iterate_succ_apply', Locals.names_addNames]
  exact Multiset.mem_add.mpr (.inr (Multiset.mem_coe.mpr hn))

end Withheld

end Graph

/-! ## 4. Workspaces -/

namespace Workspace

open ScopeGraph.Graph

variable {w : Workspace} {c : ContextId} {data : Context}

theorem setPropagates_on (hc : w.graph.context? c = some data) (hoff : data.propagates = false) :
    Edit.setPropagates c true w = .ok () (w.onGraph (·.switchOn c)) := by
  rw [Edit.setPropagates_apply, hc]
  simp [hoff]

theorem setPropagates_off (hc : w.graph.context? c = some data) (hon : data.propagates = true) :
    Edit.setPropagates c false w = .ok () (w.onGraph (·.switchOff c)) := by
  rw [Edit.setPropagates_apply, hc]
  simp [hon]

/-- **Propagation switched on and off again leaves everything as it was**, in every
    state: with all indices, the order of their keys, and the order of what stands
    under each. The context did not propagate, and none of its index's entries is in
    the index of a context that sees its parent's names. In between all of these have
    them. -/
theorem toggle_restores (limits : Limits) (calls : List Call) (c p : ContextId) (data : Context)
    (hc : ((empty limits).run calls).graph.context? c = some data)
    (hoff : data.propagates = false) (hp : data.parent = some p)
    (habsent : ∀ a ∈ ((empty limits).run calls).graph.propagationChain p,
      ∀ n ∈ data.locals.index.pairs, n.2 ∉ ((empty limits).run calls).graph.indexed a n.1) :
    let w := (empty limits).run calls
    ∃ w', Edit.setPropagates c true w = .ok () w' ∧
      (∀ a ∈ w.graph.propagationChain p, ∀ n ∈ data.locals.index.pairs,
        n.2 ∈ w'.graph.indexed a n.1) ∧
      Edit.setPropagates c false w' = .ok () w := by
  have h : ((empty limits).run calls).graph.Withheld c p data :=
    ⟨hc, hoff, hp, neat_run limits calls, habsent⟩
  generalize (empty limits).run calls = w at h
  have hon : (w.onGraph (·.switchOn c)).graph.context? c = some { data with propagates := true } :=
    h.context?_switchOn_self
  refine ⟨w.onGraph (·.switchOn c), setPropagates_on h.context hoff, ?_, ?_⟩
  · exact fun a ha n hn => h.mem_indexed_switchOn ha hn
  · rw [setPropagates_off hon rfl]
    have hgraph : (w.graph.switchOn c).switchOff c = w.graph := h.switchOff_switchOn
    show EStateM.Result.ok () { w with graph := (w.graph.switchOn c).switchOff c } = _
    rw [hgraph]

/-- Three contexts inside each other, the middle one of which propagates, with names in
    all of them; the innermost one has names of both others and one of its own. -/
def sharedNamesInside : List Call :=
  [.change (.createTop ⟨0⟩ {}), .change (.createContext ⟨0, 0⟩ {}),
    .change (.createContext ⟨1, 0⟩ {}), .change (.setPropagates ⟨1, 0⟩ true),
    .change (.declare ⟨0, 0⟩ "x" {} .ordinary), .change (.declare ⟨1, 0⟩ "y" {} .ordinary),
    .change (.declare ⟨2, 0⟩ "y" {} .ordinary), .change (.declare ⟨2, 0⟩ "z" {} .ordinary),
    .change (.declare ⟨2, 0⟩ "x" {} .ordinary), .change (.declare ⟨0, 0⟩ "w" {} .ordinary)]

/-- In between, the outermost context has three names more, two of them under keys that
    were there. -/
theorem toggle_restores_inside :
    let w := (empty {}).run sharedNamesInside
    w.graph.propagationChain ⟨1, 0⟩ = [⟨1, 0⟩, ⟨0, 0⟩] ∧
      ∃ w', Edit.setPropagates ⟨2, 0⟩ true w = .ok () w' ∧
        (⟨2, 0⟩ ∈ w'.graph.indexed ⟨0, 0⟩ "y" ∧ ⟨3, 0⟩ ∈ w'.graph.indexed ⟨0, 0⟩ "z" ∧
          ⟨4, 0⟩ ∈ w'.graph.indexed ⟨0, 0⟩ "x") ∧
        Edit.setPropagates ⟨2, 0⟩ false w' = .ok () w := by
  intro w
  have hchain : w.graph.propagationChain ⟨1, 0⟩ = [⟨1, 0⟩, ⟨0, 0⟩] := by decide +kernel
  have hinner : (w.graph.context? ⟨2, 0⟩).map
      (fun data => (data.propagates, data.parent, data.locals.index.pairs)) =
        some (false, some ⟨1, 0⟩, [("y", ⟨2, 0⟩), ("z", ⟨3, 0⟩), ("x", ⟨4, 0⟩)]) := by decide +kernel
  obtain ⟨data, hdata, he⟩ := Option.map_eq_some_iff.mp hinner
  obtain ⟨hoff, hparent, hpairs⟩ : data.propagates = false ∧ data.parent = some ⟨1, 0⟩ ∧
      data.locals.index.pairs = [("y", ⟨2, 0⟩), ("z", ⟨3, 0⟩), ("x", ⟨4, 0⟩)] := by
    simpa using he
  obtain ⟨w', hon, hshown, hback⟩ := toggle_restores {} sharedNamesInside ⟨2, 0⟩ ⟨1, 0⟩ data hdata
    hoff hparent (by rw [hpairs]; decide +kernel)
  have houter := hshown ⟨0, 0⟩ (by rw [hchain]; decide)
  rw [hpairs] at houter
  refine ⟨hchain, w', hon, ⟨houter ("y", ⟨2, 0⟩) ?_, houter ("z", ⟨3, 0⟩) ?_,
    houter ("x", ⟨4, 0⟩) ?_⟩, hback⟩ <;> decide

end Workspace

end ScopeGraph
