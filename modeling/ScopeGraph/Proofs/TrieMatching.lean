/-
  File:      ScopeGraph/Proofs/TrieMatching.lean
  Subject:   Looking for a path in a trie, and the names of a trie.

  `hasName` walks down a trie along the segments of one path and asks for a leaf at
  its end; `names` writes every path from the root to a leaf out. In a FULL trie,
  where no node has an empty segment, both are the same question. Only then: an
  empty segment is one that `hasName` asks for and that `names` leaves out.

  * `leadsToLeaf_iff`: one step of the walk after another, along the path;
  * `names_eq_map`: the names of a trie from their paths and their marker;
  * `names_of_name`, `names_underAll`: the names of the tries that a search builds;
  * `matching_agrees`: the three together.
-/
import ScopeGraph.Proofs.TrieNames

namespace ScopeGraph

namespace NameTrie

/-- No node of a trie has an empty segment. -/
inductive Full : NameTrie → Prop where
  | node {s : Ident} {r : Bool} {next : List NameTrie} (hs : s ≠ "")
      (hnext : ∀ u ∈ next, Full u) : Full (.node s r next)

variable {t : NameTrie} {p path : Path} {r : Bool}

theorem Full.of_next (h : t.Full) {u : NameTrie} (hu : u ∈ t.next) : u.Full := by
  cases h with
  | node _ hnext => exact hnext u hu

theorem Full.segment_ne (h : t.Full) : t.segment ≠ "" := by
  cases h with
  | node hs _ => exact hs

theorem Full.firm (h : t.Full) : t.Firm := by
  induction h with
  | node hs _ ih => exact ⟨hs, fun u hu => (ih u hu).nil_not_mem⟩

/-! ## 1. Walking down -/

/-- Nothing is left of a path at a node exactly when the node is a leaf; what is left
    otherwise is left to one of the tries that continue the node. -/
theorem Full.continues_iff (h : t.Full) : Continues t.next p ↔
    if p.isEmpty then t.next.isEmpty = true else ∃ u ∈ t.next, p ∈ u.paths := by
  cases p with
  | nil =>
    have hnil : Continues t.next [] ↔ t.next = [] :=
      ⟨fun hc => (hc.eq_nil_iff h.firm.next).mp rfl, fun hnext => .inl ⟨hnext, rfl⟩⟩
    simpa using hnil
  | cons s rest => simp [Continues]

/-- **The walk down a full trie ends at a leaf exactly for the paths of its names.** -/
theorem leadsToLeaf_iff (h : t.Full) : leadsToLeaf p t = true ↔ p ∈ t.paths := by
  induction p generalizing t with
  | nil => exact iff_of_false Bool.false_ne_true h.firm.nil_not_mem
  | cons s rest ih =>
    have hnext : (t.next.any (leadsToLeaf rest)) = true ↔ ∃ u ∈ t.next, rest ∈ u.paths := by
      rw [List.any_eq_true]
      exact exists_congr fun u => and_congr_right fun hu => ih (h.of_next hu)
    have hrest : (if rest.isEmpty then t.next.isEmpty else t.next.any (leadsToLeaf rest)) = true ↔
        Continues t.next rest := by
      rw [h.continues_iff]
      split
      · exact Iff.rfl
      · exact hnext
    rw [leadsToLeaf, Bool.and_eq_true, beq_iff_eq, hrest, h.firm.mem_paths]
    constructor
    · rintro ⟨rfl, hc⟩
      exact ⟨rest, hc, rfl⟩
    · rintro ⟨q, hc, he⟩
      cases he
      exact ⟨rfl, hc⟩

/-- The empty path is looked for apart from the walk, and no full trie has it. -/
theorem Full.hasName_iff (h : t.Full) : t.hasName p = true ↔ p ∈ t.paths := by
  cases p with
  | nil =>
    have hs : t.isEmpty = false := by simpa [isEmpty] using h.segment_ne
    simpa [hasName, hs] using h.firm.nil_not_mem
  | cons s rest => exact leadsToLeaf_iff h

/-! ## 2. The names of the tries that a search builds -/

/-- Where all names have the same marker, they are known by their paths. -/
theorem names_eq_map (h : ∀ n ∈ t.names, n.rooted = r) :
    t.names = t.paths.map fun p => { path := p, rooted := r } := by
  rw [paths, List.map_map]
  calc t.names = t.names.map id := (List.map_id t.names).symm
    _ = t.names.map fun n => { path := n.path, rooted := r } :=
      List.map_congr_left fun n hn => QualName.ext rfl (h n hn)

/-- A path without empty segments gives its marker to all names through it. -/
theorem rooted_of_mem_names_chain {tail : List NameTrie} (hne : path ≠ []) (hpath : "" ∉ path) :
    ∀ n ∈ (chain r tail path).names, n.rooted = r := by
  intro n hn
  cases path with
  | nil => exact absurd rfl hne
  | cons s rest =>
    have hs : s ≠ "" := fun e => hpath (e ▸ List.mem_cons_self)
    cases rest with
    | nil => exact ((mem_names_node hs).mp hn).1
    | cons s' rest => exact ((mem_names_node hs).mp hn).1

theorem names_of_name {q : QualName} (hq : "" ∉ q.path) : (ofName q).names = [q] := by
  have hrooted : ∀ n ∈ (ofName q).names, n.rooted = q.rooted := by
    intro n hn
    by_cases hne : q.path = []
    · rw [ofName, hne] at hn
      rw [List.mem_singleton.mp hn]
      rfl
    · exact rooted_of_mem_names_chain hne hq n hn
  rw [names_eq_map hrooted, paths_ofName, Path.solid_eq_self hq, List.map_singleton]

/-- **Tries at the end of a name**: the name in front of the names of each, one trie
    after the other. -/
theorem names_underAll {q : QualName} (hne : q.path ≠ []) (hq : "" ∉ q.path)
    {tail : List NameTrie} (htail : tail ≠ []) :
    (underAll q tail).names = tail.flatMap fun u => u.names.map q.join := by
  have hrooted : ∀ n ∈ (underAll q tail).names, n.rooted = q.rooted :=
    rooted_of_mem_names_chain hne hq
  rw [names_eq_map hrooted, underAll, paths_chain, endings_of_ne_nil htail,
    Path.solid_eq_self hq, List.map_map, List.map_flatMap]
  refine List.flatMap_congr fun u _ => ?_
  rw [paths, List.map_map]
  rfl

/-- **Matching agrees with writing out.** A full trie has a path exactly if one of its
    names is that name, whatever the markers say. A name without empty segments, as a
    trie, is that one name with its marker, and full tries continued at the end of such
    a name have the name in front of each of their names, one trie after the other. -/
theorem matching_agrees :
    (∀ t : NameTrie, t.Full → ∀ q : QualName,
      t.hasName q.path = true ↔ ∃ n ∈ t.names, n.sameAs q = true) ∧
    (∀ q : QualName, "" ∉ q.path → (ofName q).names = [q]) ∧
    ∀ (q : QualName) (tail : List NameTrie), q.path ≠ [] → "" ∉ q.path → tail ≠ [] →
      (∀ u ∈ tail, u.Full) →
        (underAll q tail).names = tail.flatMap fun u => u.names.map q.join := by
  refine ⟨fun t ht q => ?_, fun q hq => names_of_name hq, fun q tail hne hq htail _ =>
    names_underAll hne hq htail⟩
  rw [ht.hasName_iff, paths, List.mem_map]
  simp only [QualName.sameAs, beq_iff_eq]

/-- A trie with a leaf beside a longer branch, and that trie at the end of a rooted
    name. -/
theorem matching_agrees_branches :
    let t := node "a" true [node "b" false [], node "c" false [node "b" true []]]
    t.Full ∧ (t.hasName ["a", "c", "b"] = true ∧ t.hasName ["a", "c"] = false) ∧
      (∃ n ∈ t.names, n.sameAs { path := ["a", "c", "b"] } = true) ∧
      (underAll { path := ["x", "y"], rooted := true } [t, node "b" false []]).names =
        [{ path := ["x", "y", "a", "b"], rooted := true },
          { path := ["x", "y", "a", "c", "b"], rooted := true },
          { path := ["x", "y", "b"], rooted := true }] := by
  have hleaf : ∀ r, (node "b" r []).Full := fun r =>
    .node (by decide) fun u hu => absurd hu List.not_mem_nil
  have hbranch : (node "c" false [node "b" true []]).Full :=
    .node (by decide) fun u hu => List.mem_singleton.mp hu ▸ hleaf true
  have hfull : (node "a" true [node "b" false [], node "c" false [node "b" true []]]).Full :=
    .node (by decide) (by simp [hleaf, hbranch])
  refine ⟨hfull, ⟨rfl, rfl⟩, (matching_agrees.1 _ hfull { path := ["a", "c", "b"] }).mp rfl, ?_⟩
  exact matching_agrees.2.2 { path := ["x", "y"], rooted := true } _ (by decide) (by decide)
    (List.cons_ne_nil _ _) (by simp [hleaf, hfull])

end NameTrie

end ScopeGraph
