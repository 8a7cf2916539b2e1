/-
  File:      ScopeGraph/Proofs/SharedTries.lean
  Subject:   Splicing onto every node of a trie, where tries share their nodes.

  Tries that a search builds share their nodes: a node is kept once, every trie
  that continues with it refers to it, and it is counted how often it is referred to.
  `graft` is then done in place: a node that is referred to once is changed where it
  is, and any other is copied first (`Memory.modify`). What is grafted is not copied
  at all, only referred to once more at each node.

  * `mem_names_graft`: the names after a graft, for every full trie;
  * `Sound`: every count is the number of references. Each operation on the memory
    has one lemma that says so (`Sound.share`, `Sound.take`, `Sound.put`, ...);
  * `Held`, `Keeps`: what can be reached from some references, and that it is not
    changed;
  * `modify_spec`, `modifyAll_spec`, `splice_spec`: the splice reads as `graft`, and
    whatever is referred to from outside keeps its nodes;
  * `splice_names`: the names of all tries after a splice.
-/
import ScopeGraph.Proofs.TrieMatching

namespace ScopeGraph

namespace NameTrie

variable {t : NameTrie} {others : List NameTrie} {n : QualName} {p : Path}

/-! ## 1. The names after a graft -/

theorem mem_frontsAll {ts : List NameTrie} : p ∈ frontsAll ts ↔ ∃ u ∈ ts, p ∈ u.fronts := by
  induction ts with
  | nil => simp [frontsAll]
  | cons t ts ih => simp [frontsAll, ih]

theorem Full.front (h : t.Full) : ∀ p ∈ t.fronts, "" ∉ p := by
  induction h with
  | @node s r next hs _ ih =>
    intro p hp
    rw [fronts, List.mem_append, List.mem_map, List.mem_singleton] at hp
    rcases hp with ⟨q, hq, rfl⟩ | rfl
    · obtain ⟨u, hu, hfront⟩ := mem_frontsAll.mp hq
      exact List.not_mem_cons_of_ne_of_not_mem hs.symm (ih u hu q hfront)
    · exact List.not_mem_cons_of_ne_of_not_mem hs.symm List.not_mem_nil

theorem segment_graft (t : NameTrie) : (graft others t).segment = t.segment := by
  cases t with
  | node s r next => rfl

theorem rooted_graft (t : NameTrie) : (graft others t).rooted = t.rooted := by
  cases t with
  | node s r next => rfl

/-- **The names after a graft** are the paths to the nodes of the trie, each followed by
    each name that is not meant from the root. -/
theorem mem_names_graft (ht : t.Full) (hsome : ∃ u ∈ others, u.rooted = false) :
    n ∈ (graft others t).names ↔ n.rooted = t.rooted ∧ ∃ front ∈ t.fronts,
      ∃ u ∈ others, u.rooted = false ∧ ∃ m ∈ u.names, n.path = front ++ m.path := by
  have hs : (graft others t).segment ≠ "" := segment_graft t ▸ ht.segment_ne
  rw [mem_names_iff_of_segment hs, rooted_graft, paths_grafted hsome]
  refine and_congr_right fun _ => ?_
  rw [List.mem_flatMap]
  refine exists_congr fun front => and_congr_right fun hfront => ?_
  rw [Path.solid_eq_self (ht.front front hfront)]
  simp only [List.mem_map, List.mem_flatMap, List.mem_filter, Bool.not_eq_true', paths]
  constructor
  · rintro ⟨_, ⟨u, ⟨hu, hfree⟩, m, hm, rfl⟩, he⟩
    exact ⟨u, hu, hfree, m, hm, he.symm⟩
  · rintro ⟨u, hu, hfree, m, hm, he⟩
    exact ⟨m.path, ⟨u, ⟨hu, hfree⟩, m, hm, rfl⟩, he.symm⟩

mutual

/-- How many segments the longest path to a node has. -/
def levels : NameTrie → Nat
  | .node _ _ next => levelsAll next + 1

def levelsAll : List NameTrie → Nat
  | [] => 0
  | t :: ts => max (levels t) (levelsAll ts)

end

theorem levels_le_levelsAll {ts : List NameTrie} : ∀ u ∈ ts, u.levels ≤ levelsAll ts := by
  induction ts with
  | nil => simp
  | cons t ts ih =>
    intro u hu
    rw [levelsAll]
    rcases List.mem_cons.mp hu with rfl | hu
    · exact Nat.le_max_left _ _
    · exact (ih u hu).trans (Nat.le_max_right _ _)

end NameTrie

/-! ## 2. Nodes that are kept once -/

/-- A node that refers to what continues it. -/
structure Cell where
  segment : Ident
  rooted : Bool
  next : List Nat
  deriving DecidableEq, Repr

/-- The nodes, each at its address, and how often each address is referred to. A node
    that is being changed is not at its address. -/
structure Memory where
  cells : List (Option Cell)
  count : Nat → Nat

namespace Memory

/-- The references that a node holds. -/
def held (x : Option Cell) : List Nat := x.elim [] (·.next)

/-- The references that the nodes hold. -/
def refs (m : Memory) : List Nat := m.cells.flatMap held

def cell? (m : Memory) (a : Nat) : Option Cell := m.cells[a]?.join

/-- More references to some addresses. -/
def share (m : Memory) (as : List Nat) : Memory :=
  { m with count := fun a => m.count a + as.count a }

/-- One reference less to an address. -/
def release (m : Memory) (a : Nat) : Memory :=
  { m with count := fun b => m.count b - [a].count b }

/-- A node taken from its address. -/
def take (m : Memory) (a : Nat) : Memory := { m with cells := m.cells.set a none }

/-- A node put at its address. -/
def put (m : Memory) (a : Nat) (x : Cell) : Memory := { m with cells := m.cells.set a (some x) }

/-- A node at a new address, with one reference to it. -/
def keep (m : Memory) (x : Cell) : Memory × Nat :=
  ({ cells := m.cells ++ [some x]
     count := fun b => if b = m.cells.length then 1 else m.count b }, m.cells.length)

/-- A change to the node that a reference refers to, and the reference to the changed
    node: in place if there is no other reference to it, and to a copy otherwise. -/
def modify (change : Memory → Cell → Memory × Cell) (m : Memory) (a : Nat) : Memory × Nat :=
  match m.cell? a with
  | none => (m, a)
  | some x =>
    if m.count a = 1 then
      let changed := change (m.take a) x
      (changed.1.put a changed.2, a)
    else
      let changed := change ((m.share x.next).release a) x
      changed.1.keep changed.2

/-- A change to what several references refer to, one after the other. -/
def modifyAll (change : Memory → Cell → Memory × Cell) :
    Memory → List Nat → Memory × List Nat
  | m, [] => (m, [])
  | m, a :: as =>
    let first := modify change m a
    let rest := modifyAll change first.1 as
    (rest.1, first.2 :: rest.2)

/-- The nodes that `others` refers to and that are not meant from the root, put behind a
    node and behind every node after it, down to some level. -/
def splice (others : List Nat) : Nat → Memory → Cell → Memory × Cell
  | 0, m, x => (m, x)
  | n + 1, m, x =>
    let free := others.filter fun a => (m.cell? a).any (!·.rooted)
    let after := modifyAll (splice others n) (m.share free) x.next
    (after.1, { x with next := after.2 ++ free })

mutual

/-- A node reads as a trie. -/
def Shows (m : Memory) : NameTrie → Cell → Prop
  | .node s r ts, x => x.segment = s ∧ x.rooted = r ∧ ReadsAll m ts x.next

/-- References read as tries, one each. -/
def ReadsAll (m : Memory) : List NameTrie → List Nat → Prop
  | [], as => as = []
  | t :: ts, as => ∃ a rest x, as = a :: rest ∧ m.cell? a = some x ∧ Shows m t x ∧ ReadsAll m ts rest

end

variable {m m' : Memory} {a b : Nat} {as R R' : List Nat} {x y : Cell} {t : NameTrie}
  {ts us : List NameTrie}

theorem cell?_eq_some : m.cell? a = some x ↔ m.cells[a]? = some (some x) :=
  Option.join_eq_some_iff

theorem mem_refs : b ∈ m.refs ↔ ∃ a x, m.cell? a = some x ∧ b ∈ x.next := by
  rw [refs, List.mem_flatMap]
  constructor
  · rintro ⟨o, ho, hb⟩
    obtain ⟨a, ha⟩ := List.mem_iff_getElem?.mp ho
    cases o with
    | none => cases hb
    | some x => exact ⟨a, x, cell?_eq_some.mpr ha, hb⟩
  · rintro ⟨a, x, ha, hb⟩
    exact ⟨some x, List.mem_of_getElem? (cell?_eq_some.mp ha), hb⟩

theorem lt_of_cell? (h : m.cell? a = some x) : a < m.cells.length :=
  (List.getElem?_eq_some_iff.mp (cell?_eq_some.mp h)).1

theorem cell?_set {o : Option Cell} (ha : a < m.cells.length) :
    ({ m with cells := m.cells.set a o } : Memory).cell? b = if b = a then o else m.cell? b := by
  unfold cell?
  rw [List.getElem?_set]
  by_cases h : a = b
  · subst h
    simp [ha]
  · simp [h, Ne.symm h]

theorem cell?_keep : (m.keep x).1.cell? b = if b = m.cells.length then some x else m.cell? b := by
  unfold cell? keep
  by_cases h : b = m.cells.length
  · simp [h]
  · rw [if_neg h]
    rcases Nat.lt_or_gt_of_ne h with hlt | hgt
    · rw [List.getElem?_append_left hlt]
    · rw [List.getElem?_eq_none (by simp; omega), List.getElem?_eq_none (by omega)]

/-! ## 3. The counts -/

/-- Every count is the number of references: those held outside, `R`, and those that
    the nodes hold. -/
structure Sound (m : Memory) (R : List Nat) : Prop where
  count : ∀ a, m.count a = R.count a + m.refs.count a
  bound : ∀ a, a ∈ R ∨ a ∈ m.refs → a < m.cells.length

theorem Sound.perm (h : m.Sound R) (hp : R.Perm R') : m.Sound R' where
  count a := by rw [h.count, hp.count_eq]
  bound a ha := h.bound a (ha.imp_left hp.mem_iff.mpr)

theorem Sound.share (h : m.Sound R) (has : ∀ a ∈ as, a ∈ R ∨ a ∈ m.refs) :
    (m.share as).Sound (R ++ as) where
  count a := by
    show m.count a + as.count a = (R ++ as).count a + m.refs.count a
    rw [h.count, List.count_append]
    omega
  bound a ha := by
    rcases ha with ha | ha
    · rcases List.mem_append.mp ha with ha | ha
      · exact h.bound a (.inl ha)
      · exact h.bound a (has a ha)
    · exact h.bound a (.inr ha)

theorem Sound.release (h : m.Sound (a :: R)) : (m.release a).Sound R where
  count b := by
    show m.count b - [a].count b = R.count b + m.refs.count b
    rw [h.count, ← List.singleton_append, List.count_append]
    omega
  bound b hb := h.bound b (hb.imp_left (List.mem_cons_of_mem a))

/-- Another node at an address: its references in place of those of the one before. -/
theorem count_flatMap_set {cells : List (Option Cell)} {o : Option Cell} (o' : Option Cell)
    (h : cells[a]? = some o) (b : Nat) :
    ((cells.set a o').flatMap held).count b + (held o).count b =
      (cells.flatMap held).count b + (held o').count b := by
  induction cells generalizing a with
  | nil => simp at h
  | cons c cells ih =>
    cases a with
    | zero =>
      cases h
      simp only [List.set_cons_zero, List.flatMap_cons, List.count_append]
      omega
    | succ a =>
      have := ih h
      simp only [List.set_cons_succ, List.flatMap_cons, List.count_append]
      omega

theorem refs_subset_take : ∀ b ∈ (m.take a).refs, b ∈ m.refs := by
  intro b hb
  obtain ⟨o, ho, hb⟩ := List.mem_flatMap.mp hb
  rcases List.mem_or_eq_of_mem_set ho with ho | rfl
  · exact List.mem_flatMap.mpr ⟨o, ho, hb⟩
  · cases hb

theorem Sound.take (h : m.Sound R) (hx : m.cell? a = some x) : (m.take a).Sound (R ++ x.next) where
  count b := by
    have hset := count_flatMap_set none (cell?_eq_some.mp hx) b
    show m.count b = (R ++ x.next).count b + ((m.cells.set a none).flatMap held).count b
    rw [h.count, List.count_append, refs]
    simp only [held, Option.elim_some, Option.elim_none, List.count_nil] at hset
    omega
  bound b hb := by
    have hnext : b ∈ x.next → b ∈ m.refs := fun hb => mem_refs.mpr ⟨a, x, hx, hb⟩
    show b < (m.cells.set a none).length
    rw [List.length_set]
    refine h.bound b ?_
    rcases hb with hb | hb
    · exact (List.mem_append.mp hb).imp_right hnext
    · exact .inr (refs_subset_take b hb)

theorem Sound.put (h : m.Sound (R ++ x.next)) (ha : a < m.cells.length) (hfree : m.cell? a = none) :
    (m.put a x).Sound R := by
  have hcell : m.cells[a]? = some none := by
    unfold cell? at hfree
    rw [List.getElem?_eq_getElem ha] at hfree ⊢
    exact congrArg some hfree
  have hset : ∀ b, (m.put a x).refs.count b = m.refs.count b + x.next.count b := by
    intro b
    show ((m.cells.set a (some x)).flatMap held).count b = (m.cells.flatMap held).count b + _
    simpa [held] using count_flatMap_set (some x) hcell b
  refine ⟨fun b => ?_, fun b hb => ?_⟩
  · rw [hset]
    show m.count b = _
    rw [h.count, List.count_append]
    omega
  · show b < (m.cells.set a (some x)).length
    rw [List.length_set]
    refine h.bound b ?_
    rcases hb with hb | hb
    · exact .inl (List.mem_append_left _ hb)
    · have hpos := List.count_pos_iff.mpr hb
      rw [hset] at hpos
      rcases Nat.add_pos_iff_pos_or_pos.mp hpos with hpos | hpos
      · exact .inr (List.count_pos_iff.mp hpos)
      · exact .inl (List.mem_append_right _ (List.count_pos_iff.mp hpos))

theorem Sound.keep (h : m.Sound (R ++ x.next)) : (m.keep x).1.Sound (R ++ [m.cells.length]) := by
  have hrefs : (m.keep x).1.refs = m.refs ++ x.next := by
    simp [Memory.keep, refs, held]
  have hlength : (m.keep x).1.cells.length = m.cells.length + 1 := by simp [Memory.keep]
  have hold : ∀ b, b ∈ R ∨ b ∈ m.refs ++ x.next → b < m.cells.length := by
    intro b hb
    refine h.bound b ?_
    simp only [List.mem_append] at hb ⊢
    tauto
  refine ⟨fun b => ?_, fun b hb => ?_⟩
  · rw [hrefs]
    show (if b = m.cells.length then 1 else m.count b) = _
    split
    · next hb =>
      -- nothing refers to an address that was not there
      have hR : b ∉ R := fun hmem => absurd (hold b (.inl hmem)) (by omega)
      have hrefs : b ∉ m.refs ++ x.next := fun hmem => absurd (hold b (.inr hmem)) (by omega)
      rw [List.count_append, List.count_eq_zero.mpr hR, List.count_eq_zero.mpr hrefs, hb]
      simp
    · next hb =>
      rw [h.count]
      simp only [List.count_append, List.count_singleton, beq_iff_eq, Ne.symm hb, if_false]
      omega
  · rw [hrefs] at hb
    rw [hlength]
    rcases hb with hb | hb
    · rcases List.mem_append.mp hb with hb | hb
      · exact Nat.lt_succ_of_lt (hold b (.inl hb))
      · exact List.mem_singleton.mp hb ▸ Nat.lt_succ_self _
    · exact Nat.lt_succ_of_lt (hold b (.inr hb))

/-! ## 4. What is referred to from outside -/

/-- An address that can be reached from some references. -/
inductive Held (m : Memory) (R : List Nat) : Nat → Prop where
  | root {a : Nat} (h : a ∈ R) : Held m R a
  | next {a b : Nat} {x : Cell} (h : Held m R a) (hx : m.cell? a = some x) (hb : b ∈ x.next) :
    Held m R b

theorem Held.mono (h : Held m R a) (hR : R ⊆ R') : Held m R' a := by
  induction h with
  | root h => exact .root (hR h)
  | next _ hx hb ih => exact .next ih hx hb

theorem Held.mem (h : Held m R a) : a ∈ R ∨ a ∈ m.refs := by
  cases h with
  | root h => exact .inl h
  | next _ hx hb => exact .inr (mem_refs.mpr ⟨_, _, hx, hb⟩)

/-- What can be reached from some references is not changed. -/
def Keeps (R : List Nat) (m m' : Memory) : Prop := ∀ a, Held m R a → m'.cell? a = m.cell? a

theorem Keeps.mono (h : Keeps R' m m') (hR : R ⊆ R') : Keeps R m m' :=
  fun a ha => h a (ha.mono hR)

theorem Keeps.held_iff (h : Keeps R m m') : Held m' R a ↔ Held m R a := by
  constructor
  · intro ha
    induction ha with
    | root ha => exact .root ha
    | next _ hx hb ih => exact .next ih ((h _ ih).symm.trans hx) hb
  · intro ha
    induction ha with
    | root ha => exact .root ha
    | next ha hx hb ih => exact .next ih ((h _ ha).trans hx) hb

theorem Keeps.symm (h : Keeps R m m') : Keeps R m' m :=
  fun a ha => (h a (h.held_iff.mp ha)).symm

theorem Keeps.trans {m'' : Memory} (h : Keeps R m m') (h' : Keeps R m' m'') : Keeps R m m'' :=
  fun a ha => (h' a (h.held_iff.mpr ha)).trans (h a ha)

/-- At some addresses, which refer to one another only, the nodes are the same. -/
def Agree (P : Nat → Prop) (m m' : Memory) : Prop :=
  ∀ a x, P a → m.cell? a = some x → m'.cell? a = some x ∧ ∀ b ∈ x.next, P b

mutual

theorem Shows.transfer {P : Nat → Prop} (hP : Agree P m m') : ∀ {t : NameTrie} {x : Cell},
    (∀ b ∈ x.next, P b) → m.Shows t x → m'.Shows t x
  | .node _ _ _, _, hx, ⟨hs, hr, hnext⟩ => ⟨hs, hr, ReadsAll.transfer hP hx hnext⟩

/-- **What is read depends on the nodes it is read from.** -/
theorem ReadsAll.transfer {P : Nat → Prop} (hP : Agree P m m') :
    ∀ {ts : List NameTrie} {as : List Nat}, (∀ b ∈ as, P b) → m.ReadsAll ts as → m'.ReadsAll ts as
  | [], _, _, h => h
  | _ :: _, _, has, ⟨a, rest, x, he, hx, hshows, hrest⟩ => by
    subst he
    obtain ⟨hx', hnext⟩ := hP a x (has a List.mem_cons_self) hx
    exact ⟨a, rest, x, rfl, hx', Shows.transfer hP hnext hshows,
      ReadsAll.transfer hP (fun b hb => has b (List.mem_cons_of_mem a hb)) hrest⟩

end

theorem Keeps.agree (h : Keeps R m m') : Agree (Held m R) m m' :=
  fun a _ ha hx => ⟨(h a ha).trans hx, fun _ hb => .next ha hx hb⟩

theorem Keeps.readsAll (h : Keeps R m m') (has : as ⊆ R) (hr : m.ReadsAll ts as) :
    m'.ReadsAll ts as :=
  ReadsAll.transfer h.agree (fun _ hb => .root (has hb)) hr

/-- More nodes do not change what is read. -/
theorem agree_of_grow (h : ∀ a x, m.cell? a = some x → m'.cell? a = some x) :
    Agree (fun _ => True) m m' :=
  fun a x _ hx => ⟨h a x hx, fun _ _ => trivial⟩

/-! ## 5. Splicing -/

/-- A change to a node as a graft: the references outside, `others` among them, keep
    what they refer to, and the counts are right again. -/
def Grafts (others : List Nat) (us : List NameTrie) (change : Memory → Cell → Memory × Cell)
    (t : NameTrie) : Prop :=
  ∀ (m : Memory) (x : Cell) (R : List Nat), m.Sound (R ++ x.next) → others ⊆ R →
    m.ReadsAll us others → m.Shows t x →
      (change m x).1.Sound (R ++ (change m x).2.next) ∧
      (change m x).1.Shows (NameTrie.graft us t) (change m x).2 ∧ Keeps R m (change m x).1

variable {others : List Nat} {change : Memory → Cell → Memory × Cell}

/-- The one reference to a node is neither among the others outside nor held by a
    node. -/
theorem Sound.alone (h : m.Sound (R ++ [a])) (hone : m.count a = 1) : a ∉ R ∧ a ∉ m.refs := by
  have hcount := h.count a
  rw [hone, List.count_append, List.count_singleton_self] at hcount
  exact ⟨List.count_eq_zero.mp (by omega), List.count_eq_zero.mp (by omega)⟩

/-- **In place**: a node that is referred to once is taken out, changed and put back. -/
theorem modify_in_place (hchange : Grafts others us change t) (hs : m.Sound (R ++ [a]))
    (hothers : others ⊆ R) (hus : m.ReadsAll us others) (hx : m.cell? a = some x)
    (hshows : m.Shows t x) (hone : m.count a = 1) :
    let changed := change (m.take a) x
    (changed.1.put a changed.2).Sound (R ++ [a]) ∧
      (changed.1.put a changed.2).ReadsAll [NameTrie.graft us t] [a] ∧
      Keeps R m (changed.1.put a changed.2) := by
  intro changed
  obtain ⟨hR, hrefs⟩ := hs.alone hone
  have ha : a < m.cells.length := lt_of_cell? hx
  have hne : ∀ b, Held m R b → b ≠ a := by
    rintro b hb rfl
    exact hb.mem.elim hR hrefs
  have htaken : ∀ b, b ≠ a → (m.take a).cell? b = m.cell? b := fun b hb => by
    rw [take, cell?_set ha, if_neg hb]
  have hagree : Agree (· ≠ a) m (m.take a) := by
    intro b y hb hy
    refine ⟨(htaken b hb).trans hy, ?_⟩
    rintro c hc rfl
    exact hrefs (mem_refs.mpr ⟨b, y, hy, hc⟩)
  have hnext : ∀ b ∈ x.next, b ≠ a := by
    rintro b hb rfl
    exact hrefs (mem_refs.mpr ⟨b, x, hx, hb⟩)
  -- while the node is out, the reference to its address is kept with the others
  have hsubset : R ⊆ R ++ [a] := List.subset_append_left R [a]
  obtain ⟨hs', hshows', hkeeps⟩ := hchange (m.take a) x (R ++ [a]) (hs.take hx)
    (fun b hb => hsubset (hothers hb))
    (ReadsAll.transfer hagree (fun b hb e => hR (e ▸ hothers hb)) hus)
    (Shows.transfer hagree hnext hshows)
  have hamem : a ∈ R ++ [a] := List.mem_append_right R List.mem_cons_self
  have hfree : changed.1.cell? a = none := by
    rw [hkeeps a (.root hamem), take, cell?_set ha, if_pos rfl]
  have ha' : a < changed.1.cells.length := hs'.bound a (.inl (List.mem_append_left _ hamem))
  have hput : ∀ b, b ≠ a → (changed.1.put a changed.2).cell? b = changed.1.cell? b := fun b hb => by
    rw [put, cell?_set ha', if_neg hb]
  have hgrow : ∀ b y, changed.1.cell? b = some y →
      (changed.1.put a changed.2).cell? b = some y := by
    intro b y hy
    refine (hput b ?_).trans hy
    rintro rfl
    cases hfree.symm.trans hy
  refine ⟨hs'.put ha' hfree, ⟨a, [], changed.2, rfl, ?_, ?_, rfl⟩, ?_⟩
  · rw [put, cell?_set ha', if_pos rfl]
  · exact Shows.transfer (agree_of_grow hgrow) (fun _ _ => trivial) hshows'
  · have htake : Keeps R m (m.take a) := fun b hb => htaken b (hne b hb)
    have hchanged : Keeps R m changed.1 := htake.trans (hkeeps.mono hsubset)
    exact hchanged.trans fun b hb => hput b (hne b (hchanged.held_iff.mp hb))

/-- **A copy**: the node that is referred to more than once stays as it is. -/
theorem modify_copy (hchange : Grafts others us change t) (hs : m.Sound (R ++ [a]))
    (hothers : others ⊆ R) (hus : m.ReadsAll us others) (hx : m.cell? a = some x)
    (hshows : m.Shows t x) :
    let changed := change ((m.share x.next).release a) x
    let kept := changed.1.keep changed.2
    kept.1.Sound (R ++ [kept.2]) ∧ kept.1.ReadsAll [NameTrie.graft us t] [kept.2] ∧
      Keeps R m kept.1 := by
  intro changed kept
  have hcopied : ((m.share x.next).release a).Sound (R ++ x.next) := by
    have hshared := hs.share fun b hb => .inr (mem_refs.mpr ⟨a, x, hx, hb⟩)
    refine Sound.release (hshared.perm ?_)
    rw [List.append_assoc]
    exact List.perm_middle
  have hagree : Agree (fun _ => True) m ((m.share x.next).release a) :=
    agree_of_grow fun _ _ h => h
  obtain ⟨hs', hshows', hkeeps⟩ := hchange ((m.share x.next).release a) x R hcopied hothers
    (ReadsAll.transfer hagree (fun _ _ => trivial) hus)
    (Shows.transfer hagree (fun _ _ => trivial) hshows)
  have hsame : ∀ b, b < changed.1.cells.length → kept.1.cell? b = changed.1.cell? b :=
    fun b hb => by rw [cell?_keep, if_neg (Nat.ne_of_lt hb)]
  refine ⟨hs'.keep, ⟨kept.2, [], changed.2, rfl, ?_, ?_, rfl⟩, ?_⟩
  · exact cell?_keep.trans (if_pos rfl)
  · refine Shows.transfer (agree_of_grow fun b y hy => ?_) (fun _ _ => trivial) hshows'
    exact (hsame b (lt_of_cell? hy)).trans hy
  · have hcounted : Keeps R m ((m.share x.next).release a) := fun _ _ => rfl
    have hchanged : Keeps R m changed.1 := hcounted.trans hkeeps
    refine hchanged.trans fun b hb => hsame b (hs'.bound b ?_)
    exact hb.mem.imp_left (List.mem_append_left _)

/-- **A change to what one reference refers to.** -/
theorem modify_spec (hchange : Grafts others us change t) (hs : m.Sound (R ++ [a]))
    (hothers : others ⊆ R) (hus : m.ReadsAll us others) (ht : m.ReadsAll [t] [a]) :
    (modify change m a).1.Sound (R ++ [(modify change m a).2]) ∧
      (modify change m a).1.ReadsAll [NameTrie.graft us t] [(modify change m a).2] ∧
      Keeps R m (modify change m a).1 := by
  obtain ⟨_, _, x, he, hx, hshows, _⟩ := ht
  cases he
  unfold modify
  rw [hx]
  dsimp only
  split
  · next hone => exact modify_in_place hchange hs hothers hus hx hshows hone
  · exact modify_copy hchange hs hothers hus hx hshows

/-- **A change to what several references refer to**, one after the other. -/
theorem modifyAll_spec (hchange : ∀ t ∈ ts, Grafts others us change t) (hs : m.Sound (R ++ as))
    (hothers : others ⊆ R) (hus : m.ReadsAll us others) (hts : m.ReadsAll ts as) :
    (modifyAll change m as).1.Sound (R ++ (modifyAll change m as).2) ∧
      (modifyAll change m as).1.ReadsAll (NameTrie.graftAll us ts) (modifyAll change m as).2 ∧
      Keeps R m (modifyAll change m as).1 := by
  induction ts generalizing m as R with
  | nil =>
    cases hts
    exact ⟨hs, rfl, fun _ _ => rfl⟩
  | cons t ts ih =>
    obtain ⟨a, rest, x, rfl, hx, hshows, hrest⟩ := hts
    -- the references still to come count as held outside, and so do those that are done
    have hfirst : m.Sound ((R ++ rest) ++ [a]) := by
      refine hs.perm ?_
      rw [List.append_assoc]
      exact List.Perm.append_left R (List.perm_append_singleton a rest).symm
    obtain ⟨hs₁, hreads₁, hkeeps₁⟩ := modify_spec (hchange t List.mem_cons_self) hfirst
      (fun b hb => List.mem_append_left rest (hothers hb)) hus ⟨a, [], x, rfl, hx, hshows, rfl⟩
    have hsubset : R ⊆ R ++ rest := List.subset_append_left R rest
    have hsecond : (modify change m a).1.Sound ((R ++ [(modify change m a).2]) ++ rest) := by
      refine hs₁.perm ?_
      rw [List.append_assoc, List.append_assoc]
      exact List.Perm.append_left R List.perm_append_comm
    obtain ⟨hs₂, hreads₂, hkeeps₂⟩ := ih (fun u hu => hchange u (List.mem_cons_of_mem t hu)) hsecond
      (fun b hb => List.mem_append_left _ (hothers hb))
      ((hkeeps₁.mono hsubset).readsAll hothers hus)
      (hkeeps₁.readsAll (List.subset_append_right R rest) hrest)
    refine ⟨?_, ?_, ?_⟩
    · rw [List.append_assoc] at hs₂
      exact hs₂
    · obtain ⟨_, _, y, he, hy, hshows', _⟩ :=
        hkeeps₂.readsAll (List.subset_append_right R _) hreads₁
      cases he
      exact ⟨_, _, y, rfl, hy, hshows', hreads₂⟩
    · exact (hkeeps₁.mono hsubset).trans (hkeeps₂.mono (List.subset_append_left R _))

/-- The references that are put behind a node read as the tries that are. -/
theorem readsAll_free (hus : m.ReadsAll us others) :
    m.ReadsAll (us.filter (!·.rooted)) (others.filter fun a => (m.cell? a).any (!·.rooted)) := by
  induction us generalizing others with
  | nil =>
    cases hus
    rfl
  | cons u us ih =>
    obtain ⟨a, rest, x, rfl, hx, hshows, hrest⟩ := hus
    have hrooted : x.rooted = u.rooted := by
      cases u with
      | node s r next => exact hshows.2.1
    have hfree : (m.cell? a).any (!·.rooted) = !u.rooted := by
      rw [hx, Option.any_some, hrooted]
    rw [List.filter_cons, List.filter_cons, hfree]
    split
    · exact ⟨a, _, x, rfl, hx, hshows, ih hrest⟩
    · exact ih hrest

theorem ReadsAll.append (h : m.ReadsAll ts as) {as' : List Nat} (h' : m.ReadsAll us as') :
    m.ReadsAll (ts ++ us) (as ++ as') := by
  induction ts generalizing as with
  | nil =>
    cases h
    exact h'
  | cons t ts ih =>
    obtain ⟨a, rest, x, rfl, hx, hshows, hrest⟩ := h
    exact ⟨a, rest ++ as', x, rfl, hx, hshows, ih hrest⟩

/-- **A splice is a graft**, for every trie of no more levels. -/
theorem splice_spec {n : Nat} (hn : t.levels ≤ n) : Grafts others us (splice others n) t := by
  induction n generalizing t with
  | zero =>
    cases t with
    | node s r next => exact absurd hn (Nat.not_succ_le_zero _)
  | succ n ih =>
    cases t with
    | node s r ts =>
      rintro m x R hs hothers hus ⟨hsegment, hrooted, hts⟩
      generalize hfree : (others.filter fun a => (m.cell? a).any (!·.rooted)) = free
      have hsub : free ⊆ R := fun a ha => by
        rw [← hfree] at ha
        exact hothers (List.mem_of_mem_filter ha)
      have hshared : (m.share free).Sound ((R ++ free) ++ x.next) := by
        refine (hs.share fun a ha => .inl (List.mem_append_left _ (hsub ha))).perm ?_
        rw [List.append_assoc, List.append_assoc]
        exact List.Perm.append_left R List.perm_append_comm
      have hagree : Agree (fun _ => True) m (m.share free) := agree_of_grow fun _ _ h => h
      have hlevels : ∀ u ∈ ts, Grafts others us (splice others n) u := fun u hu =>
        ih ((NameTrie.levels_le_levelsAll u hu).trans (Nat.le_of_succ_le_succ hn))
      obtain ⟨hs', hreads, hkeeps⟩ := modifyAll_spec hlevels hshared
        (fun b hb => List.mem_append_left free (hothers hb))
        (ReadsAll.transfer hagree (fun _ _ => trivial) hus)
        (ReadsAll.transfer hagree (fun _ _ => trivial) hts)
      have hfreeReads : m.ReadsAll (us.filter (!·.rooted)) free := hfree ▸ readsAll_free hus
      have hcounted : Keeps (R ++ free) m (m.share free) := fun _ _ => rfl
      have hkept := hcounted.trans hkeeps
      unfold splice
      dsimp only
      rw [hfree]
      refine ⟨?_, ⟨hsegment, hrooted, ?_⟩, hkept.mono (List.subset_append_left R free)⟩
      · refine hs'.perm ?_
        rw [List.append_assoc]
        exact List.Perm.append_left R List.perm_append_comm
      · exact hreads.append (hkept.readsAll (List.subset_append_right R free) hfreeReads)

/-- **Splicing onto every node.** Tries are kept with shared nodes, with every count the
    number of references, and `others` are spliced onto a full trie that is at hand,
    which may share its nodes with others. Then the trie at hand has the names that a
    path to one of its nodes makes with a name of `others` that is not meant from the
    root; if all of them are meant from the root, it has the names it had. Whatever is
    referred to from outside, `others` included, reads as before, and the counts are
    right again. -/
theorem splice_names {n : Nat} (hs : m.Sound (R ++ x.next)) (hothers : others ⊆ R)
    (hus : m.ReadsAll us others) (hx : m.Shows t x) (ht : t.Full) (hn : t.levels ≤ n) :
    ∃ m' x', splice others n m x = (m', x') ∧ m'.Shows (NameTrie.graft us t) x' ∧
      ((∃ u ∈ us, u.rooted = false) → ∀ name, name ∈ (NameTrie.graft us t).names ↔
        name.rooted = t.rooted ∧ ∃ front ∈ t.fronts, ∃ u ∈ us, u.rooted = false ∧
          ∃ ending ∈ u.names, name.path = front ++ ending.path) ∧
      ((∀ u ∈ us, u.rooted = true) → (NameTrie.graft us t).names = t.names) ∧
      (∀ as ⊆ R, ∀ ts, m'.ReadsAll ts as ↔ m.ReadsAll ts as) ∧
      m'.Sound (R ++ x'.next) := by
  obtain ⟨hs', hshows, hkeeps⟩ := splice_spec hn m x R hs hothers hus hx
  refine ⟨_, _, rfl, hshows, fun hsome name => ?_, fun hall => ?_, fun as has ts => ?_, hs'⟩
  · exact NameTrie.mem_names_graft ht hsome
  · have hnone : us.filter (!·.rooted) = [] :=
      List.filter_eq_nil_iff.mpr fun u hu => by simp [hall u hu]
    rw [NameTrie.graft_of_rooted hnone]
  · exact ⟨hkeeps.symm.readsAll has, hkeeps.readsAll has⟩

/-- A trie with a leaf `b` that another trie refers to and that it has itself in two
    places: both are copied, and the node `c` between is changed in place. -/
theorem splice_names_shared :
    let m : Memory :=
      { cells := [some ⟨"b", false, []⟩, some ⟨"c", false, [0]⟩, some ⟨"o", false, []⟩,
          some ⟨"g", true, []⟩]
        count := fun a => [0, 2, 3, 0, 1].count a + [0].count a }
    let t : NameTrie := .node "a" true [.node "b" false [], .node "c" false [.node "b" false []]]
    let us : List NameTrie := [.node "o" false [], .node "g" true []]
    m.Sound ([0, 2, 3] ++ [0, 1]) ∧ m.Shows t ⟨"a", true, [0, 1]⟩ ∧ m.ReadsAll us [2, 3] ∧
      ∃ m', splice [2, 3] 3 m ⟨"a", true, [0, 1]⟩ = (m', ⟨"a", true, [4, 1, 2]⟩) ∧
        m'.ReadsAll [.node "b" false []] [0] ∧ m'.ReadsAll us [2, 3] ∧
        { path := ["a", "c", "o"], rooted := true } ∈ (NameTrie.graft us t).names ∧
        m'.Sound ([0, 2, 3] ++ [4, 1, 2]) := by
  intro m t us
  have hs : m.Sound ([0, 2, 3] ++ [0, 1]) := by
    have hbound : ∀ a ∈ [0, 2, 3, 0, 1] ++ [0], a < 4 := by decide
    exact ⟨fun _ => rfl, fun a ha => hbound a (List.mem_append.mpr ha)⟩
  have hleaf : ∀ (s : Ident) (r : Bool), m.Shows (.node s r []) ⟨s, r, []⟩ := fun _ _ =>
    ⟨rfl, rfl, rfl⟩
  have hb : m.ReadsAll [.node "b" false []] [0] := ⟨0, [], _, rfl, rfl, hleaf _ _, rfl⟩
  have hus : m.ReadsAll us [2, 3] :=
    ⟨2, [3], _, rfl, rfl, hleaf _ _, 3, [], _, rfl, rfl, hleaf _ _, rfl⟩
  have hx : m.Shows t ⟨"a", true, [0, 1]⟩ :=
    ⟨rfl, rfl, 0, [1], _, rfl, rfl, hleaf _ _, 1, [], _, rfl, rfl, ⟨rfl, rfl, hb⟩, rfl⟩
  have ht : t.Full := by
    have hfull : (NameTrie.node "b" false []).Full := .node (by decide) (by simp)
    exact .node (by decide) (by simp [hfull, NameTrie.Full.node])
  obtain ⟨m', x', he, _, hnames, _, hkeeps, hs'⟩ :=
    splice_names hs (by decide) hus hx ht (Nat.le_refl 3)
  have hx' : x' = ⟨"a", true, [4, 1, 2]⟩ := (congrArg Prod.snd he).symm.trans rfl
  subst hx'
  refine ⟨hs, hx, hus, m', he, (hkeeps [0] (by decide) _).mpr hb,
    (hkeeps [2, 3] (by decide) _).mpr hus, ?_, hs'⟩
  refine (hnames ⟨_, List.mem_cons_self, rfl⟩ _).mpr ⟨rfl, ["a", "c"], by decide, _,
    List.mem_cons_self, rfl, { path := ["o"] }, by decide, rfl⟩

end Memory

end ScopeGraph
