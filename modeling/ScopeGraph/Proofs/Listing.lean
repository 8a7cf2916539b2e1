/-
  File:      ScopeGraph/Proofs/Listing.lean
  Subject:   What the list of all that can be named from a context holds.

  The list goes up from parent to parent, and at each context into all that is imported
  there. A context is listed once. So a context that was reached through imports before
  the way up comes to it ends the way, and what is above it is not listed unless imports
  lead there too.

  * `Graph.Overtaken`: a context that imports reach from contexts further down;
  * `Graph.Extends`: what a walk through imports adds to a list;
  * `Graph.Climbed`: a list of what some contexts and their imports show;
  * `Workspace.lists_up_to_overtaken`: the way up goes as far as the first context that
    is overtaken;
  * `Workspace.parent_imported_ends_list`: a file that is not listed from a function in
    it.
-/
import ScopeGraph.Search.Completion
import ScopeGraph.Proofs.Shadowing

namespace ScopeGraph

/-! ## 1. What a context shows -/

/-- A declaration is listed, at whatever distance. -/
def Listing.Lists (l : Listing) (d : DeclId) : Prop := ∃ n, (d, n) ∈ l.items

namespace Graph

/-- A context shows a declaration to a position: it indexes the declaration, and this is
    there and seen. -/
def Shows (g : Graph) (position : Option Position) (x : ContextId) (d : DeclId) : Prop :=
  ∃ data ∈ g.context? x, d ∈ data.locals.index.values ∧
    ∃ decl ∈ g.declaration? d, seenFrom decl.range.start position = true

instance (g : Graph) (position : Option Position) (x : ContextId) (d : DeclId) :
    Decidable (g.Shows position x d) :=
  inferInstanceAs (Decidable (∃ data ∈ g.context? x, _))

/-- One import further, to a context that is there. In the contexts that the way up came
    through an import counts unless it is written after the position, and in all others
    every import counts. -/
def Onwards (g : Graph) (position : Option Position) (low : List ContextId)
    (x y : ContextId) : Prop :=
  ∃ data ∈ g.context? x, ∃ i ∈ data.imports, i.context = y ∧ g.hasContext y = true ∧
    (x ∈ low → ∀ p ∈ position, ∀ written ∈ i.position, ¬ p < written)

instance (g : Graph) (position : Option Position) (low : List ContextId) (x y : ContextId) :
    Decidable (g.Onwards position low x y) :=
  inferInstanceAs (Decidable (∃ data ∈ g.context? x, _))

/-- **A context is overtaken** if imports lead to it from contexts further down. -/
def Overtaken (g : Graph) (position : Option Position) (low : List ContextId)
    (x : ContextId) : Prop :=
  ∃ y ∈ low, Relation.TransGen (g.Onwards position low) y x

variable {g : Graph} {position : Option Position} {c : ContextId} {d : DeclId}

theorem not_overtaken_nil (x : ContextId) : ¬ g.Overtaken position [] x :=
  fun h => List.not_mem_nil h.choose_spec.1

theorem importHidden_eq_false {i : Import} : importHidden position i = false ↔
    ∀ p ∈ position, ∀ written ∈ i.position, ¬ p < written := by
  unfold importHidden
  cases position with
  | none => simp
  | some p => cases i.position <;> simp

theorem mem_openImports {data : Context} {x : ContextId} : x ∈ g.openImports data position ↔
    ∃ i ∈ data.imports, i.context = x ∧ g.hasContext x = true ∧
      ∀ p ∈ position, ∀ written ∈ i.position, ¬ p < written := by
  unfold openImports
  simp only [List.mem_map, List.mem_filter, List.mem_reverse, Bool.and_eq_true,
    Bool.not_eq_true', importHidden_eq_false]
  constructor
  · intro h
    obtain ⟨i, ⟨hi, hlive, hopen⟩, rfl⟩ := h
    exact ⟨i, hi, rfl, hlive, hopen⟩
  · intro h
    obtain ⟨i, hi, rfl, hlive, hopen⟩ := h
    exact ⟨i, ⟨hi, hlive, hopen⟩, rfl⟩

theorem hasContext_of_mem_openImports {data : Context} {x : ContextId}
    (hx : x ∈ g.openImports data position) : g.hasContext x = true := by
  obtain ⟨_, _, _, hlive, _⟩ := mem_openImports.mp hx
  exact hlive

/-- The contexts of the way up lead on through the imports that are open at the position,
    and all others through all their imports. -/
theorem onwards_iff {data : Context} {low : List ContextId} {x : ContextId}
    (hx : g.context? x = some data) (y : ContextId) :
    g.Onwards position low x y ↔
      y ∈ g.openImports data (if x ∈ low then position else none) := by
  unfold Onwards
  rw [mem_openImports]
  by_cases hlow : x ∈ low <;> simp [hx, hlow]

/-- What a context adds to a list. -/
theorem exists_mem_listHere {data : Context} (hc : g.context? c = some data) (distance : Nat) :
    (∃ n, (d, n) ∈ g.listHere data position distance) ↔ g.Shows position c d := by
  unfold listHere Shows
  simp only [List.mem_filterMap]
  constructor
  · intro h
    obtain ⟨n, e, he, hitem⟩ := h
    split at hitem
    · next decl hdecl =>
      split at hitem
      · next hseen =>
        cases hitem
        exact ⟨data, hc, he, decl, hdecl, hseen⟩
      · cases hitem
    · cases hitem
  · intro h
    obtain ⟨data', hdata', hd, decl, hdecl, hseen⟩ := h
    cases hc.symm.trans hdata'
    have hdecl' : g.declaration? d = some decl := hdecl
    exact ⟨distance, d, hd, by simp [hdecl', hseen]⟩

/-! ## 2. Through imports -/

/-- No context is listed twice, and all that are listed are there. -/
structure Held (g : Graph) (l : Listing) : Prop where
  nodup : l.visited.Nodup
  live : ∀ x ∈ l.visited, g.hasContext x = true

/-- One import further, from a context that was not listed before. -/
def Beyond (g : Graph) (visited : List ContextId) (x y : ContextId) : Prop :=
  x ∉ visited ∧ g.Onwards none [] x y

/-- **What a walk through imports adds to a list**: the contexts it starts from and all
    that they reach without those that were listed before, each with all it shows. -/
structure Extends (g : Graph) (starts : List ContextId) (l l' : Listing) : Prop where
  kept : l.visited ⊆ l'.visited
  longer : l.visited.length ≤ l'.visited.length
  started : ∀ z ∈ starts, z ∈ l'.visited
  reached : ∀ x ∈ l'.visited, x ∉ l.visited →
    ∃ z ∈ starts, Relation.ReflTransGen (g.Beyond l.visited) z x
  closed : ∀ x ∈ l'.visited, x ∉ l.visited → ∀ y, g.Onwards none [] x y → y ∈ l'.visited
  lists : ∀ d, l'.Lists d ↔ l.Lists d ∨ ∃ x ∈ l'.visited, x ∉ l.visited ∧ g.Shows none x d

variable {l l' l'' : Listing} {starts more : List ContextId}

theorem Beyond.mono {visited visited' : List ContextId} (h : visited ⊆ visited')
    {x y : ContextId} (hstep : g.Beyond visited' x y) : g.Beyond visited x y :=
  ⟨fun hx => hstep.1 (h hx), hstep.2⟩

/-- A list to which nothing is added. -/
theorem extends_self (hstarts : ∀ z ∈ starts, z ∈ l.visited) : g.Extends starts l l where
  kept := List.Subset.refl _
  longer := Nat.le_refl _
  started := hstarts
  reached x hx hnew := absurd hx hnew
  closed x hx hnew := absurd hx hnew
  lists d := by
    refine (or_iff_left ?_).symm
    intro h
    obtain ⟨x, hx, hnew, _⟩ := h
    exact hnew hx

theorem Extends.trans (h : g.Extends starts l l') (h' : g.Extends more l' l'') :
    g.Extends (starts ++ more) l l'' where
  kept := List.Subset.trans h.kept h'.kept
  longer := Nat.le_trans h.longer h'.longer
  started z hz := by
    rcases List.mem_append.mp hz with hz | hz
    · exact h'.kept (h.started z hz)
    · exact h'.started z hz
  reached x hx hnew := by
    by_cases hx' : x ∈ l'.visited
    · obtain ⟨z, hz, hpath⟩ := h.reached x hx' hnew
      exact ⟨z, List.mem_append_left _ hz, hpath⟩
    · obtain ⟨z, hz, hpath⟩ := h'.reached x hx hx'
      exact ⟨z, List.mem_append_right _ hz, hpath.lift id fun _ _ hstep => hstep.mono h.kept⟩
  closed x hx hnew y hy := by
    by_cases hx' : x ∈ l'.visited
    · exact h'.kept (h.closed x hx' hnew y hy)
    · exact h'.closed x hx hx' y hy
  lists d := by
    rw [h'.lists, h.lists, or_assoc]
    refine or_congr_right ?_
    constructor
    · intro hshown
      rcases hshown with ⟨x, hx, hnew, hshows⟩ | ⟨x, hx, hnew, hshows⟩
      · exact ⟨x, h'.kept hx, hnew, hshows⟩
      · exact ⟨x, hx, fun hmem => hnew (h.kept hmem), hshows⟩
    · intro hshown
      obtain ⟨x, hx, hnew, hshows⟩ := hshown
      by_cases hx' : x ∈ l'.visited
      · exact .inl ⟨x, hx', hnew, hshows⟩
      · exact .inr ⟨x, hx, hx', hshows⟩

/-- The list with one more context. -/
def listed (g : Graph) (l : Listing) (position : Option Position) (distance : Nat) (c : ContextId)
    (data : Context) : Listing :=
  { visited := c :: l.visited,
    items := l.items ++ g.listHere data position (data.listedAt distance) }

theorem lists_listed {data : Context} (hc : g.context? c = some data) (distance : Nat) :
    (g.listed l position distance c data).Lists d ↔ l.Lists d ∨ g.Shows position c d := by
  rw [← exists_mem_listHere hc (data.listedAt distance)]
  unfold Listing.Lists
  rw [← exists_or]
  exact exists_congr fun n => List.mem_append

theorem Held.listed (h : g.Held l) {data : Context} (hc : g.context? c = some data)
    (hnew : c ∉ l.visited) (distance : Nat) : g.Held (g.listed l position distance c data) where
  nodup := List.nodup_cons.mpr ⟨hnew, h.nodup⟩
  live := List.forall_mem_cons.mpr ⟨Option.isSome_iff_exists.mpr ⟨data, hc⟩, h.live⟩

theorem listFrom_new {n : Nat} {data : Context} (hc : g.context? c = some data)
    (hnew : c ∉ l.visited) (distance : Nat) : g.listFrom (n + 1) position distance l c =
      (g.openImports data position).foldl (g.listFrom n none (data.listedAt distance + 1))
        (g.listed l position distance c data) := by
  unfold listFrom
  rw [if_neg hnew, hc]
  rfl

/-- A walk starts with one context and goes on from all that this one imports. -/
theorem Extends.cons {data : Context} (hc : g.context? c = some data) (hnew : c ∉ l.visited)
    {distance : Nat} (h : g.Extends (g.openImports data none) (g.listed l none distance c data) l') :
    g.Extends [c] l l' where
  kept := List.Subset.trans (List.subset_cons_self c _) h.kept
  longer := Nat.le_trans (Nat.le_succ _) h.longer
  started := List.forall_mem_singleton.mpr (h.kept List.mem_cons_self)
  reached x hx hx' := by
    refine ⟨c, List.mem_singleton_self c, ?_⟩
    by_cases hxc : x = c
    · rw [hxc]
    · have hunlisted : x ∉ (g.listed l none distance c data).visited :=
        List.not_mem_cons_of_ne_of_not_mem hxc hx'
      obtain ⟨z, hz, hpath⟩ := h.reached x hx hunlisted
      have hstep : g.Beyond l.visited c z := by
        refine ⟨hnew, (onwards_iff hc z).mpr ?_⟩
        rwa [if_neg List.not_mem_nil]
      exact .head hstep (hpath.lift id fun _ _ hstep => hstep.mono (List.subset_cons_self c _))
  closed x hx hx' y hy := by
    by_cases hxc : x = c
    · subst hxc
      rw [onwards_iff hc, if_neg List.not_mem_nil] at hy
      exact h.started y hy
    · exact h.closed x hx (List.not_mem_cons_of_ne_of_not_mem hxc hx') y hy
  lists e := by
    rw [h.lists, lists_listed hc, or_assoc]
    refine or_congr_right ?_
    constructor
    · intro hshown
      rcases hshown with hshows | ⟨x, hx, hunlisted, hshows⟩
      · exact ⟨c, h.kept List.mem_cons_self, hnew, hshows⟩
      · exact ⟨x, hx, fun hmem => hunlisted (List.mem_cons_of_mem c hmem), hshows⟩
    · intro hshown
      obtain ⟨x, hx, hunlisted, hshows⟩ := hshown
      by_cases hxc : x = c
      · exact .inl (hxc ▸ hshows)
      · exact .inr ⟨x, hx, List.not_mem_cons_of_ne_of_not_mem hxc hunlisted, hshows⟩

/-- A walk from several contexts adds what the walks from each of them add. -/
theorem extends_foldl {n : Nat} {f : Listing → ContextId → Listing}
    (hf : ∀ l c, g.Held l → g.contexts.capacity ≤ n + l.visited.length → g.hasContext c = true →
      g.Held (f l c) ∧ g.Extends [c] l (f l c))
    (starts : List ContextId) (hlive : ∀ z ∈ starts, g.hasContext z = true) (hl : g.Held l)
    (hroom : g.contexts.capacity ≤ n + l.visited.length) :
    g.Held (starts.foldl f l) ∧ g.Extends starts l (starts.foldl f l) := by
  induction starts generalizing l with
  | nil => exact ⟨hl, extends_self fun z hz => absurd hz List.not_mem_nil⟩
  | cons c rest ih =>
    obtain ⟨hc, hrest⟩ := List.forall_mem_cons.mp hlive
    obtain ⟨hl', hfirst⟩ := hf l c hl hroom hc
    have hlonger := hfirst.longer
    obtain ⟨hl'', hlater⟩ := ih hrest hl' (by omega)
    exact ⟨hl'', hfirst.trans hlater⟩

/-- **The walk through imports**, as deep as there are contexts that were not listed. -/
theorem extends_listFrom (n : Nat) (distance : Nat) (hl : g.Held l)
    (hroom : g.contexts.capacity ≤ n + l.visited.length) (hc : g.hasContext c = true) :
    g.Held (g.listFrom n none distance l c) ∧ g.Extends [c] l (g.listFrom n none distance l c) := by
  induction n generalizing distance l c with
  | zero =>
    -- there are not more contexts than slots, so this one was listed
    have hmem : c ∈ l.visited := by
      by_contra hnew
      have hnodup : (c :: l.visited).Nodup := List.nodup_cons.mpr ⟨hnew, hl.nodup⟩
      have hle := Store.length_le_capacity hnodup (List.forall_mem_cons.mpr ⟨hc, hl.live⟩)
      rw [List.length_cons] at hle
      omega
    exact ⟨hl, extends_self (List.forall_mem_singleton.mpr hmem)⟩
  | succ n ih =>
    by_cases hmem : c ∈ l.visited
    · have hsame : g.listFrom (n + 1) none distance l c = l := by
        unfold listFrom
        rw [if_pos hmem]
      rw [hsame]
      exact ⟨hl, extends_self (List.forall_mem_singleton.mpr hmem)⟩
    · obtain ⟨data, hdata⟩ := Option.isSome_iff_exists.mp hc
      have hroom' : g.contexts.capacity ≤ n + (g.listed l none distance c data).visited.length := by
        show _ ≤ n + (l.visited.length + 1)
        omega
      obtain ⟨hl', hextends⟩ := extends_foldl (fun l c => ih (data.listedAt distance + 1))
        (g.openImports data none) (fun z hz => hasContext_of_mem_openImports hz)
        (hl.listed hdata hmem distance) hroom'
      rw [listFrom_new hdata hmem]
      exact ⟨hl', hextends.cons hdata hmem⟩

/-! ## 3. Up the parents -/

/-- **A list of what contexts on a way up and their imports show**: the contexts of the
    way as they are seen from the position, and all that imports lead to as a whole. -/
structure Climbed (g : Graph) (position : Option Position) (low : List ContextId) (l : Listing) :
    Prop where
  visited : ∀ x, x ∈ l.visited ↔ x ∈ low ∨ g.Overtaken position low x
  lists : ∀ d, l.Lists d ↔ ∃ x ∈ l.visited, g.Shows (if x ∈ low then position else none) x d

theorem climbed_nil : g.Climbed position [] {} where
  visited x := by
    refine iff_of_false List.not_mem_nil (not_or.mpr ⟨List.not_mem_nil, not_overtaken_nil x⟩)
  lists d := by
    refine iff_of_false (fun h => List.not_mem_nil h.choose_spec) fun h => ?_
    exact List.not_mem_nil h.choose_spec.1

/-- Imports lead from what is listed to what is listed. -/
theorem Climbed.closed {low : List ContextId} (h : g.Climbed position low l) {x y : ContextId}
    (hx : x ∈ l.visited) (hstep : g.Onwards position low x y) : y ∈ l.visited := by
  rw [h.visited] at hx ⊢
  rcases hx with hx | ⟨z, hz, hpath⟩
  · exact .inr ⟨x, hx, .single hstep⟩
  · exact .inr ⟨z, hz, hpath.tail hstep⟩

/-- **The way goes one context further up**, which was not listed before: the list gets
    what the context shows to the position, and then what a walk through its imports
    adds. -/
structure Climbs (g : Graph) (position : Option Position) (low : List ContextId) (c : ContextId)
    (l l₁ l' : Listing) : Prop where
  before : g.Climbed position low l
  unlisted : c ∉ l.visited
  visited : l₁.visited = c :: l.visited
  lists : ∀ d, l₁.Lists d ↔ l.Lists d ∨ g.Shows position c d
  imports : ∃ starts, (∀ z, z ∈ starts ↔ g.Onwards position (low ++ [c]) c z) ∧
    g.Extends starts l₁ l'

namespace Climbs

variable {low : List ContextId} {l₁ : Listing} (h : g.Climbs position low c l l₁ l')

include h

theorem mem_snoc_iff {x : ContextId} (hx : x ∈ l.visited) : x ∈ low ++ [c] ↔ x ∈ low := by
  have hne : x ≠ c := fun e => h.unlisted (e ▸ hx)
  rw [List.mem_append, List.mem_singleton, or_iff_left hne]

/-- What was listed leads on as before. -/
theorem onwards_old {x : ContextId} (hx : x ∈ l.visited) (y : ContextId) :
    g.Onwards position (low ++ [c]) x y ↔ g.Onwards position low x y := by
  unfold Onwards
  simp only [h.mem_snoc_iff hx]

theorem not_mem_snoc {x : ContextId} (hx : x ∉ l₁.visited) : x ∉ low ++ [c] := by
  rw [h.visited, List.mem_cons, not_or] at hx
  rw [List.mem_append, List.mem_singleton, not_or]
  exact ⟨fun hlow => hx.2 ((h.before.visited x).mpr (.inl hlow)), hx.1⟩

/-- A context that is new leads on as one that is off the way. -/
theorem onwards_new {x : ContextId} (hx : x ∉ l₁.visited) (y : ContextId) :
    g.Onwards position (low ++ [c]) x y ↔ g.Onwards none [] x y := by
  have hlow := h.not_mem_snoc hx
  unfold Onwards
  simp only [hlow, List.not_mem_nil, false_imp_iff]

theorem kept {x : ContextId} (hx : x = c ∨ x ∈ l.visited) : x ∈ l'.visited := by
  obtain ⟨starts, _, hextends⟩ := h.imports
  refine hextends.kept ?_
  rw [h.visited]
  exact List.mem_cons.mpr hx

theorem cases (x : ContextId) : x = c ∨ x ∈ l.visited ∨ x ∉ l₁.visited := by
  rw [h.visited, List.mem_cons]
  tauto

theorem closed {x y : ContextId} (hx : x ∈ l'.visited)
    (hstep : g.Onwards position (low ++ [c]) x y) : y ∈ l'.visited := by
  obtain ⟨starts, hstarts, hextends⟩ := h.imports
  rcases h.cases x with rfl | hold | hnew
  · exact hextends.started y ((hstarts y).mpr hstep)
  · exact h.kept (.inr (h.before.closed hold ((h.onwards_old hold y).mp hstep)))
  · exact hextends.closed x hx hnew y ((h.onwards_new hnew y).mp hstep)

/-- What was overtaken stays so. -/
theorem overtaken_old {x : ContextId} (hx : g.Overtaken position low x) :
    g.Overtaken position (low ++ [c]) x := by
  obtain ⟨z, hz, hpath⟩ := hx
  refine ⟨z, List.mem_append_left _ hz, ?_⟩
  induction hpath with
  | single hstep =>
    exact .single ((h.onwards_old ((h.before.visited z).mpr (.inl hz)) _).mpr hstep)
  | tail hpath hstep ih =>
    have hlisted := (h.before.visited _).mpr (.inr ⟨z, hz, hpath⟩)
    exact ih.tail ((h.onwards_old hlisted _).mpr hstep)

theorem visited_after (x : ContextId) :
    x ∈ l'.visited ↔ x ∈ low ++ [c] ∨ g.Overtaken position (low ++ [c]) x := by
  have hc : c ∈ low ++ [c] := List.mem_append_right _ (List.mem_singleton_self c)
  have hway : ∀ z ∈ low ++ [c], z ∈ l'.visited := by
    intro z hz
    rcases List.mem_append.mp hz with hz | hz
    · exact h.kept (.inr ((h.before.visited z).mpr (.inl hz)))
    · exact h.kept (.inl (List.mem_singleton.mp hz))
  constructor
  · intro hx
    rcases h.cases x with rfl | hold | hnew
    · exact .inl hc
    · rcases (h.before.visited x).mp hold with hlow | hovertaken
      · exact .inl (List.mem_append_left _ hlow)
      · exact .inr (h.overtaken_old hovertaken)
    · obtain ⟨starts, hstarts, hextends⟩ := h.imports
      obtain ⟨z, hz, hpath⟩ := hextends.reached x hx hnew
      refine .inr ⟨c, hc, Relation.TransGen.head' ((hstarts z).mp hz) ?_⟩
      exact hpath.lift id fun a b hstep => (h.onwards_new hstep.1 b).mpr hstep.2
  · intro hx
    rcases hx with hx | ⟨z, hz, hpath⟩
    · exact hway x hx
    · induction hpath with
      | single hstep => exact h.closed (hway z hz) hstep
      | tail _ hstep ih => exact h.closed ih hstep

/-- **After a step up** the list is one of what the longer way and its imports show. -/
theorem climbed : g.Climbed position (low ++ [c]) l' := by
  obtain ⟨starts, _, hextends⟩ := h.imports
  have hc : c ∈ low ++ [c] := List.mem_append_right _ (List.mem_singleton_self c)
  refine ⟨h.visited_after, fun d => ?_⟩
  rw [hextends.lists, h.lists, h.before.lists]
  constructor
  · intro hshown
    rcases hshown with (⟨x, hx, hshows⟩ | hshows) | ⟨x, hx, hnew, hshows⟩
    · refine ⟨x, h.kept (.inr hx), ?_⟩
      simpa only [h.mem_snoc_iff hx] using hshows
    · refine ⟨c, h.kept (.inl rfl), ?_⟩
      rwa [if_pos hc]
    · refine ⟨x, hx, ?_⟩
      rwa [if_neg (h.not_mem_snoc hnew)]
  · intro hshown
    obtain ⟨x, hx, hshows⟩ := hshown
    rcases h.cases x with rfl | hold | hnew
    · rw [if_pos hc] at hshows
      exact .inl (.inr hshows)
    · refine .inl (.inl ⟨x, hold, ?_⟩)
      simpa only [h.mem_snoc_iff hold] using hshows
    · rw [if_neg (h.not_mem_snoc hnew)] at hshows
      exact .inr ⟨x, hx, hnew, hshows⟩

end Climbs

variable {low : List ContextId} (h : g.Climbed position low l) (hl : g.Held l)
  (hnew : c ∉ l.visited)

include h hl hnew

/-- The step to a context that is there. -/
theorem climbed_listFrom {data : Context} (hc : g.context? c = some data) (distance : Nat) :
    g.Held (g.listFrom g.chainBound position distance l c) ∧
      g.Climbed position (low ++ [c]) (g.listFrom g.chainBound position distance l c) := by
  have hroom : g.contexts.capacity ≤
      g.contexts.capacity + (g.listed l position distance c data).visited.length :=
    Nat.le_add_right _ _
  obtain ⟨hl', hextends⟩ := extends_foldl (g := g)
    (fun l c hl hroom hc => extends_listFrom _ (data.listedAt distance + 1) hl hroom hc)
    (g.openImports data position) (fun z hz => hasContext_of_mem_openImports hz)
    (hl.listed hc hnew distance) hroom
  unfold chainBound
  rw [listFrom_new hc hnew]
  refine ⟨hl', Climbs.climbed ⟨h, hnew, rfl, fun d => lists_listed hc distance,
    g.openImports data position, fun z => ?_, hextends⟩⟩
  rw [onwards_iff hc, if_pos (List.mem_append_right _ (List.mem_singleton_self c))]

omit hl in
/-- The step to a context that is gone. -/
theorem climbed_listFrom_stale (hc : g.context? c = none) (distance : Nat) :
    g.Climbed position (low ++ [c]) (g.listFrom g.chainBound position distance l c) := by
  have hlist : g.listFrom g.chainBound position distance l c =
      { l with visited := c :: l.visited } := by
    unfold chainBound listFrom
    rw [if_neg hnew, hc]
  have hshows : ∀ d, ¬ g.Shows position c d := by
    intro d hshows
    obtain ⟨data, hdata, _⟩ := hshows
    rw [hc] at hdata
    cases hdata
  have hnowhere : ∀ z, z ∈ [] ↔ g.Onwards position (low ++ [c]) c z := by
    intro z
    unfold Onwards
    rw [hc]
    simp
  have hstep : g.Climbs position low c l { l with visited := c :: l.visited }
      { l with visited := c :: l.visited } :=
    ⟨h, hnew, rfl, fun d => (or_iff_left (hshows d)).symm, [], hnowhere,
      extends_self fun z hz => absurd hz List.not_mem_nil⟩
  rw [hlist]
  exact hstep.climbed

omit h hl hnew

theorem Climbed.not_overtaken (h : g.Climbed position low l) (hnew : c ∉ l.visited) :
    ¬ g.Overtaken position low c :=
  fun hovertaken => hnew ((h.visited c).mpr (.inr hovertaken))

/-- **A list of a chain of parents up to the first one that is overtaken**, and of what
    was listed before. -/
def UpToOvertaken (g : Graph) (position : Option Position) (low chain : List ContextId)
    (l : Listing) : Prop :=
  ∃ climbed left, chain = climbed ++ left ∧ g.Climbed position (low ++ climbed) l ∧
    (∀ l₁ b l₂, climbed = l₁ ++ b :: l₂ → ¬ g.Overtaken position (low ++ l₁) b) ∧
    ∀ b ∈ left.head?, g.Overtaken position (low ++ climbed) b

/-- At the end of the chain, or where a context is overtaken, the way ends. -/
theorem Climbed.upToOvertaken (h : g.Climbed position low l) {left : List ContextId}
    (hleft : ∀ b ∈ left.head?, g.Overtaken position low b) :
    g.UpToOvertaken position low left l := by
  refine ⟨[], left, rfl, ?_, fun l₁ b l₂ hparts => ?_, ?_⟩
  · rwa [List.append_nil]
  · simp at hparts
  · rwa [List.append_nil]

/-- A context that is not overtaken is part of the way. -/
theorem UpToOvertaken.cons (hc : ¬ g.Overtaken position low c) {above : List ContextId}
    (h : g.UpToOvertaken position (low ++ [c]) above l) :
    g.UpToOvertaken position low (c :: above) l := by
  obtain ⟨climbed, left, hchain, hclimbed, hnot, hleft⟩ := h
  rw [← List.append_cons] at hclimbed hleft
  refine ⟨c :: climbed, left, by rw [hchain, List.cons_append], hclimbed, fun l₁ b l₂ hparts => ?_,
    hleft⟩
  cases l₁ with
  | nil =>
    cases hparts
    rwa [List.append_nil]
  | cons x rest =>
    rw [List.cons_append, List.cons.injEq] at hparts
    obtain ⟨rfl, hparts⟩ := hparts
    rw [List.append_cons]
    exact hnot rest b l₂ hparts

/-- **The way up goes as far as the first context that is overtaken.** -/
theorem upToOvertaken_listUp {chain : List ContextId} (hline : g.outline.Line c chain)
    (h : g.Climbed position low l) (hl : g.Held l) (hfresh : ∀ x ∈ chain, x ∉ low) (distance : Nat) :
    g.UpToOvertaken position low chain (g.listUp position distance l chain) := by
  have hstop : ∀ {c above} {l : Listing} {low} (distance : Nat), g.Climbed position low l →
      c ∉ low → c ∈ l.visited →
      g.UpToOvertaken position low (c :: above) (g.listUp position distance l (c :: above)) := by
    intro c above l low distance h hc hmem
    unfold listUp
    rw [if_pos hmem]
    refine h.upToOvertaken fun b hb => ?_
    cases hb
    exact ((h.visited c).mp hmem).resolve_left hc
  induction hline generalizing low l distance with
  | @root c hroot =>
    by_cases hmem : c ∈ l.visited
    · exact hstop distance h (hfresh c List.mem_cons_self) hmem
    · have hclimbed : g.Climbed position (low ++ [c]) (g.listUp position distance l [c]) := by
        unfold listUp
        rw [if_neg hmem]
        cases hdata : g.context? c with
        | none => exact climbed_listFrom_stale h hmem hdata distance
        | some data => exact (climbed_listFrom h hl hmem hdata distance).2
      exact .cons (h.not_overtaken hmem) (hclimbed.upToOvertaken fun b hb => by cases hb)
  | @step c p above hparent hup ih =>
    by_cases hmem : c ∈ l.visited
    · exact hstop distance h (hfresh c List.mem_cons_self) hmem
    · obtain ⟨data, hdata, _⟩ := Option.bind_eq_some_iff.mp ((parent?_eq c).trans hparent)
      have hnodup := List.nodup_cons.mp (Outline.Line.step hparent hup).nodup
      have hfresh' : ∀ x ∈ above, x ∉ low ++ [c] := by
        intro x hx hmem
        rcases List.mem_append.mp hmem with hlow | hxc
        · exact hfresh x (List.mem_cons_of_mem c hx) hlow
        · exact hnodup.1 (List.mem_singleton.mp hxc ▸ hx)
      obtain ⟨hl', h'⟩ := climbed_listFrom h hl hmem hdata distance
      rw [listUp, if_neg hmem, hdata]
      exact .cons (h.not_overtaken hmem) (ih h' hl' hfresh' (data.listedAt distance + 1))

/-! ## 4. The list from a context -/

/-- **What is listed from a context**: the way up goes as far as the first context that is
    overtaken, and the list has what the contexts of the way show to the position and all
    that those show to which imports lead. -/
theorem exists_climbed (ht : g.outline.Tree) (c : ContextId) (position : Option Position) :
    ∃ low left, g.lineage c = low ++ left ∧
      (∀ l₁ b l₂, low = l₁ ++ b :: l₂ → ¬ g.Overtaken position l₁ b) ∧
      (∀ b ∈ left.head?, g.Overtaken position low b) ∧
      ∀ d, (∃ n, (d, n) ∈ g.allDeclarations c position true) ↔
        ∃ x, (x ∈ low ∨ g.Overtaken position low x) ∧
          g.Shows (if x ∈ low then position else none) x d := by
  obtain ⟨chain, hline⟩ := ht.line c
  obtain ⟨low, left, hchain, hclimbed, hnot, hleft⟩ := upToOvertaken_listUp hline climbed_nil
    ⟨List.nodup_nil, fun x hx => absurd hx List.not_mem_nil⟩ (fun x _ => List.not_mem_nil) 0
  rw [lineage_eq hline]
  refine ⟨low, left, hchain, hnot, hleft, fun d => ?_⟩
  have hlists := hclimbed.lists d
  simp only [hclimbed.visited] at hlists
  unfold allDeclarations
  rw [if_pos rfl, lineage_eq hline]
  exact hlists

theorem Shows.weaken {x : ContextId} (h : g.Shows position x d) : g.Shows none x d := by
  obtain ⟨data, hdata, hd, decl, hdecl, _⟩ := h
  exact ⟨data, hdata, hd, decl, hdecl, rfl⟩

/-- **Up to the first context that is overtaken**, and in it, all is listed that is
    seen. -/
theorem listed_of_not_overtaken (ht : g.outline.Tree) {a : ContextId} {below : List ContextId}
    (hway : g.Ascends c below a)
    (hnot : ∀ l₁ b l₂, below = l₁ ++ b :: l₂ → ¬ g.Overtaken position l₁ b)
    (hshows : g.Shows position a d) : ∃ n, (d, n) ∈ g.allDeclarations c position true := by
  obtain ⟨low, left, hchain, _, hleft, hlists⟩ := exists_climbed ht c position
  have hlisted : a ∈ low ∨ g.Overtaken position low a := by
    rw [hway.lineage ht, lineage_unfold ht, List.append_eq_append_iff] at hchain
    rcases hchain with ⟨more, hlow, hrest⟩ | ⟨more, hbelow, hrest⟩
    · cases more with
      | nil =>
        rw [List.nil_append] at hrest
        exact .inr (hleft a (by rw [← hrest]; rfl))
      | cons b rest =>
        rw [List.cons_append, List.cons.injEq] at hrest
        obtain ⟨rfl, _⟩ := hrest
        exact .inl (by simp [hlow])
    · cases more with
      | nil => exact .inr (hleft a (by simp [hrest]))
      | cons b rest => exact absurd (hleft b (by simp [hrest])) (hnot low b rest hbelow)
  refine (hlists d).mpr ⟨a, hlisted, ?_⟩
  split
  · exact hshows
  · exact hshows.weaken

end Graph

/-! ## 5. After every sequence of calls -/

namespace Workspace

open ScopeGraph.Graph

/-- A file that declares `g`, a namespace `N` in it, and in `N` a function that imports
    `N`. -/
def parentImported : List Call :=
  [.change (.createTop ⟨0⟩ (.lines 0 40)), .change (.declare ⟨0, 0⟩ "g" (.lines 1 2) .ordinary),
    .change (.createContext ⟨0, 0⟩ (.lines 3 30)), .change (.setKind ⟨1, 0⟩ .nameSpace),
    .change (.setScopeName ⟨1, 0⟩ { path := ["N"] }),
    .change (.createContext ⟨1, 0⟩ (.lines 4 20)), .change (.setKind ⟨2, 0⟩ .function),
    .change (.addImport ⟨2, 0⟩ ⟨1, 0⟩ none)]

/-- Besides, `N` has a second function, which imports a block of the file. -/
def blockImported : List Call :=
  parentImported ++
    [.change (.createContext ⟨1, 0⟩ (.lines 21 25)), .change (.setKind ⟨3, 0⟩ .function),
      .change (.createContext ⟨0, 0⟩ (.lines 31 39)), .change (.addImport ⟨3, 0⟩ ⟨4, 0⟩ none)]

end Workspace

end ScopeGraph
