/-
  File:      ScopeGraph/Proofs/TrieNames.lean
  Subject:   The names that a trie stands for.

  A search looks at the root of a trie only: whether its names are meant from the
  root, what their first segment is, and whether they have a second one. In a FIRM
  trie this is the same for all names: its first segment is not empty, and whatever
  continues it adds something. All that a search builds is firm, and each way of
  building is a simple operation on the names.

  * `paths_node`, `paths_chain`, `paths_under`: what a trie reads, firm or not, in order
    and without the segments that are empty;
  * `Firm.mem_names`: the names of a firm trie, by its root and what continues it;
  * `mem_names_under`, `firm_underAll`: names continued at the end of a name;
  * `paths_grafted`, `firm_graft`: names continued at every node of a trie, and at
    every segment of a name;
  * `Graph.paths_qualifiedBy`: names with the path of a context in front.
-/
import ScopeGraph.Proofs.ContextTree
import ScopeGraph.Proofs.TableSearch

namespace ScopeGraph

attribute [ext] QualName

/-- A name of one segment at least, none of them empty, and not meant from the
    root. -/
def QualName.Plain (n : QualName) : Prop := n.path ≠ [] ∧ "" ∉ n.path ∧ n.rooted = false

instance (n : QualName) : Decidable n.Plain :=
  inferInstanceAs (Decidable (n.path ≠ [] ∧ "" ∉ n.path ∧ n.rooted = false))

/-- The segments of a path that are not empty. -/
def Path.solid (p : Path) : Path := p.filter (· ≠ "")

theorem Path.solid_append (p q : Path) : (p ++ q : Path).solid = p.solid ++ q.solid :=
  List.filter_append ..

theorem Path.solid_eq_self {p : Path} (h : "" ∉ p) : p.solid = p :=
  List.filter_eq_self.mpr fun s hs => by
    have hne : s ≠ "" := fun e => h (e ▸ hs)
    simpa using hne

theorem Path.solid_singleton {s : Ident} (hs : s ≠ "") : Path.solid [s] = [s] :=
  Path.solid_eq_self (by simpa using hs.symm)

/-- The parts of a path from its start on, of one segment at least and the longest
    first. -/
def Path.fronts : Path → List Path
  | [] => []
  | s :: rest => (fronts rest).map (s :: ·) ++ [[s]]

theorem Path.mem_fronts {p path : Path} : p ∈ path.fronts ↔ p ≠ [] ∧ p <+: path := by
  induction path generalizing p with
  | nil =>
    refine iff_of_false List.not_mem_nil fun h => ?_
    exact h.1 (List.prefix_nil.mp h.2)
  | cons s rest ih =>
    simp only [fronts, List.mem_append, List.mem_map, List.mem_singleton, ih]
    constructor
    · rintro (⟨q, ⟨_, hq⟩, rfl⟩ | rfl)
      · exact ⟨List.cons_ne_nil s q, List.cons_prefix_cons.mpr ⟨rfl, hq⟩⟩
      · exact ⟨List.cons_ne_nil s [], ⟨rest, rfl⟩⟩
    · rintro ⟨hne, hp⟩
      cases p with
      | nil => exact absurd rfl hne
      | cons s' q =>
        obtain ⟨rfl, hq⟩ := List.cons_prefix_cons.mp hp
        by_cases hnil : q = []
        · exact .inr (by rw [hnil])
        · exact .inl ⟨q, ⟨hnil, hq⟩, rfl⟩

namespace NameTrie

/-! ## 1. Reading after a name -/

/-- The paths of the names of a trie. -/
def paths (t : NameTrie) : List Path := t.names.map (·.path)

theorem path_extend_eq (before : QualName) (s : Ident) (rooted : Bool) :
    (extend before s rooted).path = before.path ++ Path.solid [s] := by
  unfold extend Path.solid
  by_cases hs : s = ""
  · cases before.isEmpty <;> simp [hs, QualName.withRoot]
  · cases before.isEmpty <;> simp [hs, QualName.withRoot, QualName.push]

mutual

/-- What is read before stands in front of what a trie reads. -/
theorem map_path_namesAfter (before : QualName) : ∀ t : NameTrie,
    (namesAfter before t).map (·.path) = t.paths.map (before.path ++ ·)
  | .node s r [] => by
    show [(extend before s r).path] = [before.path ++ (extend {} s r).path]
    rw [path_extend_eq, path_extend_eq {}]
    rfl
  | .node s r (t :: ts) => by
    unfold paths names namesAfter
    rw [map_path_namesAfterAll (extend before s r) (t :: ts),
      map_path_namesAfterAll (extend {} s r) (t :: ts), List.map_map, path_extend_eq,
      path_extend_eq {}]
    simp only [Function.comp_def, List.append_assoc, List.nil_append]

theorem map_path_namesAfterAll (before : QualName) : ∀ ts : List NameTrie,
    (namesAfterAll before ts).map (·.path) = (ts.flatMap paths).map (before.path ++ ·)
  | [] => rfl
  | t :: ts => by
    unfold namesAfterAll
    rw [List.map_append, map_path_namesAfter before t, map_path_namesAfterAll before ts,
      List.flatMap_cons, List.map_append]

end

theorem extend_of_ne_nil {before : QualName} (h : before.path ≠ []) (s : Ident) (rooted : Bool) :
    (extend before s rooted).path ≠ [] ∧ (extend before s rooted).rooted = before.rooted := by
  have hb : before.isEmpty = false := by simpa [QualName.isEmpty] using h
  unfold extend
  rw [hb]
  cases s.isEmpty <;> simp [QualName.push, h]

mutual

/-- After a segment the markers of a trie do not count. -/
theorem rooted_namesAfter {before : QualName} (h : before.path ≠ []) : ∀ (t : NameTrie),
    ∀ n ∈ namesAfter before t, n.rooted = before.rooted
  | .node s r [], n, hn => by
    rw [List.mem_singleton.mp hn]
    exact (extend_of_ne_nil h s r).2
  | .node s r (t :: ts), n, hn => by
    have hs := extend_of_ne_nil h s r
    rw [← hs.2]
    exact rooted_namesAfterAll hs.1 (t :: ts) n hn

theorem rooted_namesAfterAll {before : QualName} (h : before.path ≠ []) : ∀ (ts : List NameTrie),
    ∀ n ∈ namesAfterAll before ts, n.rooted = before.rooted
  | [], n, hn => absurd hn List.not_mem_nil
  | t :: ts, n, hn => by
    rcases List.mem_append.mp hn with hn | hn
    · exact rooted_namesAfter h t n hn
    · exact rooted_namesAfterAll h ts n hn

end

mutual

theorem namesAfter_ne_nil : ∀ (before : QualName) (t : NameTrie), namesAfter before t ≠ []
  | _, .node _ _ [] => List.cons_ne_nil _ _
  | before, .node s r (t :: ts) => namesAfterAll_ne_nil (extend before s r) t ts

theorem namesAfterAll_ne_nil : ∀ (before : QualName) (t : NameTrie) (ts : List NameTrie),
    namesAfterAll before (t :: ts) ≠ []
  | before, t, _ => List.append_ne_nil_of_left_ne_nil (namesAfter_ne_nil before t) _

end

/-- After a segment a name is known by its path. -/
theorem mem_namesAfterAll {before : QualName} (h : before.path ≠ []) {ts : List NameTrie}
    {n : QualName} : n ∈ namesAfterAll before ts ↔
      n.rooted = before.rooted ∧ ∃ p, (∃ t ∈ ts, p ∈ t.paths) ∧ n.path = before.path ++ p := by
  have hpath : ∀ q, q ∈ (namesAfterAll before ts).map (·.path) ↔
      ∃ p, (∃ t ∈ ts, p ∈ t.paths) ∧ q = before.path ++ p := by
    intro q
    rw [map_path_namesAfterAll]
    simp only [List.mem_map, List.mem_flatMap, eq_comm]
  constructor
  · intro hn
    exact ⟨rooted_namesAfterAll h ts n hn, (hpath n.path).mp (List.mem_map_of_mem hn)⟩
  · rintro ⟨hrooted, hp⟩
    obtain ⟨n', hn', he⟩ := List.mem_map.mp ((hpath n.path).mpr hp)
    have hsame : n' = n :=
      QualName.ext he ((rooted_namesAfterAll h ts n' hn').trans hrooted.symm)
    rw [← hsame]
    exact hn'

/-! ## 2. The paths of a trie -/

/-- What tries add to a name at whose end they stand; nothing, if there are none. -/
def Continues (next : List NameTrie) (p : Path) : Prop :=
  (next = [] ∧ p = []) ∨ ∃ t ∈ next, p ∈ t.paths

variable {t : NameTrie} {s : Ident} {r : Bool} {next tail others : List NameTrie} {p path : Path}
  {n : QualName}

/-- All that tries add to a name at whose end they stand, in order. -/
def endings : List NameTrie → List Path
  | [] => [[]]
  | t :: ts => (t :: ts).flatMap paths

theorem mem_endings : p ∈ endings next ↔ Continues next p := by
  cases next <;> simp [endings, Continues]

theorem endings_of_ne_nil (h : next ≠ []) : endings next = next.flatMap paths := by
  cases next with
  | nil => exact absurd rfl h
  | cons t ts => rfl

/-- A trie reads its first segment, unless it is empty, and then what continues it. -/
theorem paths_node : (node s r next).paths = (endings next).map (Path.solid [s] ++ ·) := by
  cases next with
  | nil =>
    show [(extend {} s r).path] = _
    rw [path_extend_eq]
    simp [endings]
  | cons u us =>
    show (namesAfterAll (extend {} s r) (u :: us)).map (·.path) = _
    rw [map_path_namesAfterAll, path_extend_eq]
    rfl

theorem mem_paths_node : p ∈ (node s r next).paths ↔
    ∃ q, Continues next q ∧ p = Path.solid [s] ++ q := by
  rw [paths_node]
  simp only [List.mem_map, mem_endings, eq_comm]

theorem paths_fromRoot (t : NameTrie) : t.fromRoot.paths = t.paths := by
  cases t with
  | node s r next => rw [fromRoot, paths_node, paths_node]

/-- Tries at the end of a path continue what is not empty of it. -/
theorem paths_chain (r : Bool) (tail : List NameTrie) (path : Path) :
    (chain r tail path).paths = (endings tail).map (path.solid ++ ·) := by
  induction path generalizing r with
  | nil => exact paths_node
  | cons s rest ih =>
    cases rest with
    | nil => exact paths_node
    | cons s' rest =>
      have hsolid : Path.solid (s :: s' :: rest) = Path.solid [s] ++ Path.solid (s' :: rest) :=
        Path.solid_append [s] (s' :: rest)
      rw [chain, paths_node, hsolid, endings, List.flatMap_singleton, ih, List.map_map]
      simp only [Function.comp_def, List.append_assoc]

theorem mem_paths_chain : p ∈ (chain r tail path).paths ↔
    ∃ q, Continues tail q ∧ p = path.solid ++ q := by
  rw [paths_chain]
  simp only [List.mem_map, mem_endings, eq_comm]

theorem paths_ofName (q : QualName) : (ofName q).paths = [q.path.solid] := by
  rw [ofName, paths_chain]
  simp [endings]

theorem mem_paths_ofName {q : QualName} : p ∈ (ofName q).paths ↔ p = q.path.solid := by
  rw [paths_ofName, List.mem_singleton]

theorem paths_under (q : QualName) (t : NameTrie) :
    (under q t).paths = t.paths.map (q.path.solid ++ ·) := by
  unfold under
  split
  · next hempty =>
    have hnil : q.path = [] := List.isEmpty_iff.mp hempty
    simp [hnil, Path.solid]
  · rw [underAll, paths_chain, endings, List.flatMap_singleton]

theorem mem_paths_under {q : QualName} : p ∈ (under q t).paths ↔
    ∃ p' ∈ t.paths, p = q.path.solid ++ p' := by
  rw [paths_under]
  simp only [List.mem_map, eq_comm]

/-! ## 3. Firm tries -/

/-- The root of a trie says what holds of all its names: its segment is not empty,
    and what continues it is not either. -/
structure Firm (t : NameTrie) : Prop where
  segment : t.segment ≠ ""
  next : ∀ u ∈ t.next, [] ∉ u.paths

theorem Continues.eq_nil_iff (h : Continues next p) (hnext : ∀ u ∈ next, [] ∉ u.paths) :
    p = [] ↔ next = [] := by
  rcases h with ⟨rfl, rfl⟩ | ⟨u, hu, hp⟩
  · exact iff_of_true rfl rfl
  · refine iff_of_false ?_ (List.ne_nil_of_mem hu)
    rintro rfl
    exact hnext u hu hp

/-- The names of a trie whose first segment is not empty. -/
theorem mem_names_node (hs : s ≠ "") : n ∈ (node s r next).names ↔
    n.rooted = r ∧ ∃ p, Continues next p ∧ n.path = s :: p := by
  have hs' : s.isEmpty = false := by simpa using hs
  have hextend : extend {} s r = { path := [s], rooted := r } := by
    unfold extend
    rw [hs']
    rfl
  cases next with
  | nil =>
    show n ∈ [extend {} s r] ↔ _
    rw [hextend, List.mem_singleton]
    cases n
    simp [Continues, and_comm]
  | cons t ts =>
    show n ∈ namesAfterAll (extend {} s r) (t :: ts) ↔ _
    rw [hextend, mem_namesAfterAll (List.cons_ne_nil s [])]
    simp [Continues]

/-- Of a trie whose first segment is not empty a name is known by its path. -/
theorem mem_names_iff_of_segment (hs : t.segment ≠ "") :
    n ∈ t.names ↔ n.rooted = t.rooted ∧ n.path ∈ t.paths := by
  cases t with
  | node s r next =>
    have hs : s ≠ "" := hs
    rw [mem_names_node hs, mem_paths_node, Path.solid_singleton hs]
    rfl

theorem Firm.mem_names (h : t.Firm) : n ∈ t.names ↔
    n.rooted = t.rooted ∧ ∃ p, Continues t.next p ∧ n.path = t.segment :: p := by
  cases t with
  | node s r next => exact mem_names_node h.segment

theorem Firm.mem_paths (h : t.Firm) : p ∈ t.paths ↔
    ∃ q, Continues t.next q ∧ p = t.segment :: q := by
  cases t with
  | node s r next =>
    have hs : "" ∉ [s] := fun hmem => h.segment (List.mem_singleton.mp hmem).symm
    rw [mem_paths_node, Path.solid_eq_self hs]
    rfl

theorem Firm.mem_names_iff (h : t.Firm) : n ∈ t.names ↔ n.rooted = t.rooted ∧ n.path ∈ t.paths :=
  mem_names_iff_of_segment h.segment

theorem Firm.nil_not_mem (h : t.Firm) : [] ∉ t.paths := by
  intro hp
  obtain ⟨q, _, he⟩ := h.mem_paths.mp hp
  cases he

theorem Firm.fromRoot (h : t.Firm) : t.fromRoot.Firm := by
  cases t with
  | node s r next => exact ⟨h.segment, h.next⟩

theorem rooted_fromRoot (t : NameTrie) : t.fromRoot.rooted = true := by
  cases t with
  | node s r next => rfl

/-! ## 4. Names continued at the end of a name -/

theorem rooted_chain (r : Bool) (tail : List NameTrie) (path : Path) :
    (chain r tail path).rooted = r := by
  unfold chain
  split <;> rfl

theorem firm_chain (hne : path ≠ []) (hpath : "" ∉ path) (htail : ∀ u ∈ tail, [] ∉ u.paths)
    (r : Bool) : (chain r tail path).Firm := by
  cases path with
  | nil => exact absurd rfl hne
  | cons s rest =>
    have hs : s ≠ "" := fun e => hpath (e ▸ List.mem_cons_self)
    cases rest with
    | nil => exact ⟨hs, htail⟩
    | cons s' rest =>
      refine ⟨hs, fun u hu hnil => ?_⟩
      have hrest : "" ∉ s' :: rest := fun h => hpath (List.mem_cons_of_mem s h)
      rw [List.mem_singleton.mp hu, mem_paths_chain, Path.solid_eq_self hrest] at hnil
      obtain ⟨q, _, he⟩ := hnil
      cases he

theorem firm_under {q : QualName} (hq : "" ∉ q.path) (ht : t.Firm) : (under q t).Firm := by
  unfold under
  split
  · exact ht
  · next hfull =>
    have hne : q.path ≠ [] := fun e => hfull (List.isEmpty_iff.mpr e)
    have htail : ∀ u ∈ [t], [] ∉ u.paths := fun u hu => List.mem_singleton.mp hu ▸ ht.nil_not_mem
    exact firm_chain hne hq htail q.rooted

theorem rooted_under {q : QualName} (hq : q.path ≠ []) (t : NameTrie) :
    (under q t).rooted = q.rooted := by
  have hfull : q.isEmpty = false := by simpa [QualName.isEmpty] using hq
  rw [under, hfull]
  exact rooted_chain _ _ _

/-- An imported name in front of the names of a trie. -/
theorem mem_names_under {q : QualName} (hq : q.Plain) (ht : t.Firm) :
    n ∈ (under q t).names ↔ ∃ m ∈ t.names, n = q.join m := by
  obtain ⟨hne, hfull, _⟩ := hq
  rw [(firm_under hfull ht).mem_names_iff, rooted_under hne, mem_paths_under,
    Path.solid_eq_self hfull]
  constructor
  · rintro ⟨hrooted, p, hp, he⟩
    obtain ⟨m, hm, rfl⟩ := List.mem_map.mp hp
    exact ⟨m, hm, QualName.ext he hrooted⟩
  · rintro ⟨m, hm, rfl⟩
    exact ⟨rfl, m.path, List.mem_map_of_mem hm, rfl⟩

/-- Another name in place of the first segment of the names of a trie. -/
theorem firm_underAll {q : QualName} (hq : q.Plain) (ht : t.Firm) :
    (underAll q t.next).Firm ∧ ∀ n, n ∈ (underAll q t.next).names ↔
      ∃ m ∈ t.names, n = q.join { path := m.path.tail } := by
  obtain ⟨hne, hfull, _⟩ := hq
  have hfirm : (underAll q t.next).Firm := firm_chain hne hfull ht.next q.rooted
  refine ⟨hfirm, fun n => ?_⟩
  rw [hfirm.mem_names_iff, underAll, rooted_chain, mem_paths_chain, Path.solid_eq_self hfull]
  constructor
  · rintro ⟨hrooted, p, hp, he⟩
    exact ⟨{ path := t.segment :: p, rooted := t.rooted }, ht.mem_names.mpr ⟨rfl, p, hp, rfl⟩,
      QualName.ext he hrooted⟩
  · rintro ⟨m, hm, rfl⟩
    obtain ⟨_, p, hp, he⟩ := ht.mem_names.mp hm
    exact ⟨rfl, p, hp, by rw [he]; rfl⟩

/-! ## 5. Names continued at every node of a trie -/

/-- A path of names that are not meant from the root. -/
def FreePath (names : List NameTrie) (p : Path) : Prop :=
  ∃ t ∈ names, t.rooted = false ∧ p ∈ t.paths

theorem filter_rooted_ne_nil (hsome : ∃ u ∈ others, u.rooted = false) :
    others.filter (!·.rooted) ≠ [] := by
  obtain ⟨v, hv, hfree⟩ := hsome
  exact List.ne_nil_of_mem (List.mem_filter.mpr ⟨hv, by rw [hfree]; rfl⟩)

theorem exists_mem_filter_rooted :
    (∃ u ∈ others.filter (!·.rooted), p ∈ u.paths) ↔ FreePath others p := by
  simp [FreePath, and_assoc]

mutual

/-- Where there is nothing to put behind a node, a graft changes nothing. -/
theorem graft_of_rooted (h : others.filter (!·.rooted) = []) : ∀ t, graft others t = t
  | .node s r next => by rw [graft, h, List.append_nil, graftAll_of_rooted h next]

theorem graftAll_of_rooted (h : others.filter (!·.rooted) = []) : ∀ ts, graftAll others ts = ts
  | [] => rfl
  | t :: ts => by rw [graftAll, graft_of_rooted h t, graftAll_of_rooted h ts]

end

/-- Where there are names to be put behind a name, some are. -/
theorem hasNext_graft (hsome : ∃ u ∈ others, u.rooted = false) (t : NameTrie) :
    (graft others t).hasNext = true := by
  cases t with
  | node s r next =>
    rw [graft]
    simpa [hasNext, NameTrie.next] using fun _ => filter_rooted_ne_nil hsome

mutual

/-- The paths from the root of a trie to its nodes, those to what continues a node
    before the one to the node itself. -/
def fronts : NameTrie → List Path
  | .node s _ next => (frontsAll next).map (s :: ·) ++ [[s]]

/-- The paths to the nodes of several tries, one trie after the other. -/
def frontsAll : List NameTrie → List Path
  | [] => []
  | t :: ts => fronts t ++ frontsAll ts

end

theorem fronts_chain (hne : path ≠ []) (r : Bool) : (chain r [] path).fronts = path.fronts := by
  induction path generalizing r with
  | nil => exact absurd rfl hne
  | cons s rest ih =>
    cases rest with
    | nil => rfl
    | cons s' rest =>
      rw [chain, fronts, frontsAll, frontsAll, List.append_nil, ih (List.cons_ne_nil _ _)]
      rfl

mutual

/-- **Names put behind every node of a trie** follow each path to a node. -/
theorem paths_grafted (hsome : ∃ u ∈ others, u.rooted = false) : ∀ t : NameTrie,
    (graft others t).paths = t.fronts.flatMap fun front =>
      ((others.filter (!·.rooted)).flatMap paths).map (front.solid ++ ·)
  | .node s r next => by
    have hsolid : ∀ front : Path, Path.solid (s :: front) = Path.solid [s] ++ front.solid :=
      fun front => Path.solid_append [s] front
    rw [graft, paths_node, endings_of_ne_nil
      (List.append_ne_nil_of_right_ne_nil _ (filter_rooted_ne_nil hsome)), List.flatMap_append,
      flatMap_paths_graftAll hsome next, fronts]
    generalize (others.filter (!·.rooted)).flatMap paths = ends
    rw [List.map_append, List.flatMap_append, List.map_flatMap, List.flatMap_map,
      List.flatMap_singleton]
    refine congrArg (· ++ ends.map (Path.solid [s] ++ ·)) (List.flatMap_congr fun front _ => ?_)
    rw [hsolid front, List.map_map]
    simp only [Function.comp_def, List.append_assoc]

theorem flatMap_paths_graftAll (hsome : ∃ u ∈ others, u.rooted = false) : ∀ ts : List NameTrie,
    (graftAll others ts).flatMap paths = (frontsAll ts).flatMap fun front =>
      ((others.filter (!·.rooted)).flatMap paths).map (front.solid ++ ·)
  | [] => rfl
  | t :: ts => by
    rw [graftAll, frontsAll, List.flatMap_cons, List.flatMap_append, paths_grafted hsome t,
      flatMap_paths_graftAll hsome ts]

end

/-- Behind every segment of one name: after each part of it, the longest first. -/
theorem paths_graft (hsome : ∃ u ∈ others, u.rooted = false) (hne : path ≠ []) (r : Bool) :
    (graft others (chain r [] path)).paths = path.fronts.flatMap fun front =>
      ((others.filter (!·.rooted)).flatMap paths).map (front.solid ++ ·) := by
  rw [paths_grafted hsome, fronts_chain hne]

theorem mem_paths_graft (hsome : ∃ u ∈ others, u.rooted = false) (hne : path ≠ []) :
    p ∈ (graft others (chain r [] path)).paths ↔ ∃ front : Path, front ≠ [] ∧ front <+: path ∧
      ∃ q, FreePath others q ∧ p = front.solid ++ q := by
  rw [paths_graft hsome hne]
  simp only [List.mem_flatMap, List.mem_map, Path.mem_fronts, exists_mem_filter_rooted, and_assoc,
    eq_comm]

/-- **Names grafted onto a name without empty segments** make a firm trie. -/
theorem firm_graft (hne : path ≠ []) (hpath : "" ∉ path) (hothers : ∀ u ∈ others, u.Firm)
    (hsome : ∃ u ∈ others, u.rooted = false) (r : Bool) :
    (graft others (chain r [] path)).Firm ∧ (graft others (chain r [] path)).hasNext = true ∧
      ∀ p, p ∈ (graft others (chain r [] path)).paths ↔ ∃ front, front ≠ [] ∧ front <+: path ∧
        ∃ q, FreePath others q ∧ p = front ++ q := by
  have hmem : ∀ {path : Path} {r : Bool}, path ≠ [] → "" ∉ path → ∀ p,
      p ∈ (graft others (chain r [] path)).paths ↔ ∃ front, front ≠ [] ∧ front <+: path ∧
        ∃ q, FreePath others q ∧ p = front ++ q := by
    intro path r hne hpath p
    rw [mem_paths_graft hsome hne]
    refine exists_congr fun front => and_congr_right fun _ => and_congr_right fun hfront => ?_
    rw [Path.solid_eq_self fun h => hpath (hfront.subset h)]
  refine ⟨?_, ?_, hmem hne hpath⟩
  · -- whatever is put behind the first segment adds something
    have hfree : ∀ u ∈ others.filter (!·.rooted), [] ∉ u.paths :=
      fun u hu => (hothers u (List.mem_of_mem_filter hu)).nil_not_mem
    cases path with
    | nil => exact absurd rfl hne
    | cons s rest =>
      have hs : s ≠ "" := fun e => hpath (e ▸ List.mem_cons_self)
      cases rest with
      | nil =>
        rw [chain, graft, graftAll]
        exact ⟨hs, hfree⟩
      | cons s' rest =>
        have hrest : "" ∉ s' :: rest := fun h => hpath (List.mem_cons_of_mem s h)
        rw [chain, graft, graftAll, graftAll]
        refine ⟨hs, List.forall_mem_cons.mpr ⟨fun hnil => ?_, hfree⟩⟩
        obtain ⟨front, hfront, _, q, _, he⟩ := (hmem (List.cons_ne_nil s' rest) hrest []).mp hnil
        exact hfront (List.append_eq_nil_iff.mp he.symm).1
  · exact hasNext_graft hsome _

end NameTrie

namespace Graph

open NameTrie

/-- No scope name has an empty segment. -/
def FullScopes (g : Graph) : Prop :=
  ∀ c data, g.context? c = some data → "" ∉ data.scopeName.path

instance (g : Graph) : Decidable g.FullScopes :=
  decidable_of_iff (∀ e ∈ g.contexts.entries, "" ∉ e.2.scopeName.path)
    ⟨fun h c data hc => h (c, data) (Store.mem_entries_iff.mpr hc),
      fun h e he => h e.1 e.2 (Store.mem_entries_iff.mp he)⟩

variable {g : Graph} {t : NameTrie}

theorem scopePart_of_context? {c : ContextId} {data : Context} (hc : g.context? c = some data) :
    g.scopePart true c = data.scopeName.path := by
  unfold scopePart
  rw [hc]
  rfl

/-- The path of a context is that of its parent and then its own scope name. -/
theorem scopePath_of_context? (ht : g.outline.Tree) {c : ContextId} {data : Context}
    (hc : g.context? c = some data) :
    g.scopePath c = data.parent.elim [] g.scopePath ++ data.scopeName.path := by
  unfold scopePath
  rw [scopePathWith_unfold ht, parent?_of_context? hc, scopePart_of_context? hc]

/-- The scope names of a chain of contexts stand in front of the names. -/
theorem paths_qualifiedBy_line {c : ContextId} {l : List ContextId} (hl : g.outline.Line c l)
    (t : NameTrie) : (g.qualifiedBy t l).paths =
      t.paths.map (Path.solid (l.reverse.flatMap (g.scopePart true)) ++ ·) := by
  induction hl generalizing t with
  | @root c _ =>
    unfold qualifiedBy
    cases hc : g.context? c with
    | none => simp [scopePart, hc, Path.solid]
    | some data =>
      dsimp only [qualifiedBy]
      rw [paths_under]
      simp [scopePart_of_context? hc]
  | @step c _ l hs _ ih =>
    obtain ⟨data, hc, _⟩ := Option.bind_eq_some_iff.mp ((parent?_eq c).trans hs)
    rw [qualifiedBy, hc]
    dsimp only
    rw [ih]
    simp [paths_under, scopePart_of_context? hc, Path.solid_append]

/-- **The path of what is above a context stands in front of the names.** -/
theorem paths_qualifiedBy (ht : g.outline.Tree) (t : NameTrie) (above : Option ContextId) :
    (g.qualifiedBy t (above.elim [] g.lineage)).paths =
      t.paths.map (Path.solid (above.elim [] g.scopePath) ++ ·) := by
  cases above with
  | none => simp [qualifiedBy, Path.solid]
  | some c =>
    obtain ⟨l, hl⟩ := ht.line c
    rw [Option.elim_some, Option.elim_some, lineage_eq hl, scopePath, scopePathWith, lineage_eq hl]
    exact paths_qualifiedBy_line hl t

theorem mem_paths_qualifiedBy {p : Path} (ht : g.outline.Tree) (above : Option ContextId) :
    p ∈ (g.qualifiedBy t (above.elim [] g.lineage)).paths ↔
      ∃ q ∈ t.paths, p = Path.solid (above.elim [] g.scopePath) ++ q := by
  rw [paths_qualifiedBy ht]
  simp only [List.mem_map, eq_comm]

theorem FullScopes.scopePath (h : g.FullScopes) (above : Option ContextId) :
    "" ∉ above.elim [] g.scopePath := by
  cases above with
  | none => exact List.not_mem_nil
  | some c =>
    intro hmem
    obtain ⟨x, _, hx⟩ := List.mem_flatMap.mp hmem
    cases hc : g.context? x with
    | none => simp [scopePart, hc] at hx
    | some data =>
      rw [scopePart_of_context? hc] at hx
      exact h x data hc hx

theorem firm_qualifiedBy (hscopes : g.FullScopes) (ht : t.Firm) (l : List ContextId) :
    (g.qualifiedBy t l).Firm := by
  induction l generalizing t with
  | nil => exact ht
  | cons c rest ih =>
    unfold qualifiedBy
    cases hc : g.context? c with
    | none => exact ht
    | some data => exact ih (firm_under (hscopes c data hc) ht)

end Graph

end ScopeGraph
