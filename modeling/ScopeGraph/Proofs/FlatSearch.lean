/-
  File:      ScopeGraph/Proofs/FlatSearch.lean
  Subject:   Tries of names make no difference to what a search finds.

  The FLAT SEARCH goes the way of the search for declarations with a plain list of
  names. Where the search splices a trie, the flat search writes out every name: one
  for each import, for each alias, for each part of the name of a namespace. It asks
  each name what the search asks the root of a trie. Both find the same
  declarations, as long as no name has an empty segment and no alias leads to a name
  that is meant from the root.

  * `Graph.flatDeclarations`: the flat search;
  * `Spells`: tries and a list of names that belong together, and one lemma for each
    thing that a search does with names;
  * `Graph.alike_findDeclarations`: the two searches, for all memos that are coherent;
  * `Workspace.findDeclarations_flat`: the two searches after every sequence of calls.
-/
import ScopeGraph.Proofs.MemoFree
import ScopeGraph.Proofs.TrieNames

namespace ScopeGraph

/-! ## 1. The flat search -/

/-- The segment of a name of one segment that is not meant from the root. -/
def QualName.lone? (n : QualName) : Option Ident :=
  match n.path with
  | [s] => if n.rooted then none else some s
  | _ => none

/-- A flat search inside an imported context, given what was found before. -/
abbrev FlatDescent :=
  ContextId → List QualName → Option Position → List DeclId → Query (List DeclId)

namespace Graph

variable (g : Graph)

/-- What a context that is no namespace has under the names. -/
def flatHere (filter : DeclFilter) (data : Context) (names : List QualName)
    (position : Option Position) : List DeclId :=
  if data.kind = .nameSpace then []
  else (names.filterMap (·.lone?)).flatMap fun s => (g.localMatches data s position filter).value

/-- The targets of aliases of a context for the first of several segments. -/
def flatRenames (c : ContextId) (position : Option Position) (n : QualName) : List QualName :=
  match n.path with
  | s :: _ :: _ => (g.aliasTargets position (g.indexed c s)).value
  | _ => []

/-- What the imports and aliases of a context make of one name. -/
def flatAliased (c : ContextId) (position : Option Position) (n : QualName) : List QualName :=
  if n.rooted then [n]
  else
    let imports := (g.aliasTargets position (g.indexed c .globalImport)).value
    let renames := g.flatRenames c position n
    imports.map (·.join n) ++ renames.map (·.join { path := n.path.tail }) ++
      if renames.isEmpty then [n] else []

/-- The names looked for on the way out of a context: out of a namespace, also each
    name behind each part of the name of the namespace, meant from the root. -/
def flatUpwards (data : Context) (names : List QualName) : List QualName :=
  if data.kind = .nameSpace then
    names ++ data.scopeName.path.inits.tail.flatMap fun front =>
      (names.filter (!·.rooted)).map fun n =>
        { path := data.parent.elim [] g.scopePath ++ front ++ n.path, rooted := true }
  else names

/-- The flat search in one imported context. -/
def flatImport (c : ContextId) (names : List QualName) (position : Option Position)
    (descend : FlatDescent) (found : List DeclId) (i : Import) : Query (List DeclId) :=
  match g.context? i.context with
  | none => pure found
  | some target =>
    if importHidden position i then pure found
    else descend i.context names (g.positionIn c i target position) found

/-- The flat search in all that a context imports, the last import first. -/
def flatImports (c : ContextId) (data : Context) (names : List QualName)
    (position : Option Position) (descend : FlatDescent) (found : List DeclId) :
    Query (List DeclId) :=
  let unrooted := names.filter (!·.rooted)
  if unrooted.isEmpty then pure found
  else data.imports.reverse.foldlM (g.flatImport c unrooted position descend) found

/-- The flat search in one context and in what it imports: what is found, and the
    names with which it may go on in the parent. -/
def flatLevel (filter : DeclFilter) (descend : FlatDescent) (c : ContextId)
    (names : List QualName) (position : Option Position) (found : List DeclId) :
    Query (List DeclId × Option (Context × List QualName)) :=
  match g.context? c with
  | none => return (found, none)
  | some data => do
    if data.isTop && data.registered then
      return (found ++ (← g.declarationsUnder filter ⟨c⟩ (names.map (·.path)) position), none)
    let found := found ++ g.flatHere filter data names position
    if data.kind ≠ .nameSpace && !found.isEmpty then return (found, none)
    let names := names.flatMap (g.flatAliased c position)
    let found ← g.flatImports c data names position descend found
    if !found.isEmpty then return (found, none)
    return (found, some (data, names))

/-- The flat search with at most so many imports to go through. -/
def flatDescent (filter : DeclFilter) : Nat → FlatDescent
  | 0, _, _, _, found => return found
  | n + 1, c, names, position, found => do
    return (← g.flatLevel filter (flatDescent filter n) c names position found).1

/-- The flat search in a chain of contexts, each the parent of the one before. -/
def flatUp (filter : DeclFilter) (climbs : Bool) (position : Option Position) :
    List ContextId → List QualName → List DeclId → Query (List DeclId)
  | [], _, found => return found
  | c :: above, names, found => do
    let descend := g.flatDescent filter g.limits.importDepth
    match ← g.flatLevel filter descend c names position found with
    | (found, none) => return found
    | (found, some (data, names)) =>
      if climbs then flatUp filter climbs position above (g.flatUpwards data names) found
      else return found

/-- **The flat search**: the declarations a name stands for, seen from a context. -/
def flatDeclarations (c : ContextId) (name : QualName) (position : Option Position)
    (type : Option TypeId) (flags : SearchFlags) : Query (List DeclId) :=
  if g.hasContext c then do
    return (← g.flatUp ⟨type, flags.onlyFunctions⟩ flags.climbs position (g.lineage c) [name]
      []).eraseDups
  else return []

end Graph

/-! ## 2. Tries and the names they spell -/

/-- Tries that spell the names of a list: the root of each says what holds of all its
    names, and one at least is not meant from the root. -/
structure Spells (tries : List NameTrie) (names : List QualName) : Prop where
  firm : ∀ t ∈ tries, t.Firm
  free : ∃ t ∈ tries, t.rooted = false
  mem : ∀ n, n ∈ names ↔ ∃ t ∈ tries, n ∈ t.names

namespace NameTrie

variable {t : NameTrie} {n : QualName}

theorem Firm.lone? (ht : t.Firm) (hn : n ∈ t.names) {s : Ident} :
    n.lone? = some s ↔ (!t.rooted && !t.hasNext) = true ∧ t.segment = s := by
  obtain ⟨hrooted, p, hp, he⟩ := ht.mem_names.mp hn
  have hnil := hp.eq_nil_iff ht.next
  unfold QualName.lone? hasNext
  rw [he, hrooted]
  cases p with
  | nil => simp [hnil.mp rfl]
  | cons s' p =>
    have hnext : t.next ≠ [] := fun e => List.cons_ne_nil s' p (hnil.mpr e)
    simp [hnext]

theorem exists_mem_names (t : NameTrie) : ∃ n, n ∈ t.names :=
  List.exists_mem_of_ne_nil _ (namesAfter_ne_nil {} t)

end NameTrie

/-- A plain name is spelled by its trie. -/
theorem spells_ofName {q : QualName} (hq : q.Plain) : Spells [.ofName q] [q] := by
  obtain ⟨hne, hfull, hfree⟩ := hq
  have htail : ∀ u ∈ ([] : List NameTrie), [] ∉ u.paths := nofun
  have hfirm : (NameTrie.ofName q).Firm := NameTrie.firm_chain hne hfull htail q.rooted
  have hrooted : (NameTrie.ofName q).rooted = q.rooted := NameTrie.rooted_chain _ _ _
  refine ⟨fun t ht => List.mem_singleton.mp ht ▸ hfirm,
    ⟨_, List.mem_cons_self, hrooted.trans hfree⟩, fun n => ?_⟩
  have hmem : n ∈ (NameTrie.ofName q).names ↔ n = q := by
    refine hfirm.mem_names_iff.trans ?_
    rw [NameTrie.mem_paths_ofName, Path.solid_eq_self hfull, hrooted, QualName.ext_iff, and_comm]
  simp [hmem]

namespace Spells

variable {tries : List NameTrie} {names : List QualName} (h : Spells tries names)

include h

theorem unrooted : Spells (tries.filter (!·.rooted)) (names.filter (!·.rooted)) where
  firm t ht := h.firm t (List.mem_of_mem_filter ht)
  free := by
    obtain ⟨t, ht, hfree⟩ := h.free
    exact ⟨t, List.mem_filter.mpr ⟨ht, by rw [hfree]; rfl⟩, hfree⟩
  mem n := by
    rw [List.mem_filter, h.mem]
    constructor
    · rintro ⟨⟨t, ht, hn⟩, hfree⟩
      rw [((h.firm t ht).mem_names.mp hn).1] at hfree
      exact ⟨t, List.mem_filter.mpr ⟨ht, hfree⟩, hn⟩
    · rintro ⟨t, ht, hn⟩
      obtain ⟨ht, hfree⟩ := List.mem_filter.mp ht
      refine ⟨⟨t, ht, hn⟩, ?_⟩
      rw [((h.firm t ht).mem_names.mp hn).1]
      exact hfree

theorem tries_ne_nil : tries ≠ [] := by
  obtain ⟨t, ht, _⟩ := h.free
  exact List.ne_nil_of_mem ht

theorem names_ne_nil : names ≠ [] := by
  obtain ⟨t, ht, _⟩ := h.free
  obtain ⟨n, hn⟩ := NameTrie.exists_mem_names t
  exact List.ne_nil_of_mem ((h.mem n).mpr ⟨t, ht, hn⟩)

theorem paths : SameMembers ((tries.flatMap (·.names)).map (·.path)) (names.map (·.path)) := by
  intro p
  simp only [List.mem_map, List.mem_flatMap, h.mem]

theorem freePath {p : Path} : NameTrie.FreePath tries p ↔
    ∃ n ∈ names, n.rooted = false ∧ n.path = p := by
  constructor
  · rintro ⟨t, ht, hfree, hp⟩
    obtain ⟨n, hn, rfl⟩ := List.mem_map.mp hp
    exact ⟨n, (h.mem n).mpr ⟨t, ht, hn⟩, ((h.firm t ht).mem_names.mp hn).1.trans hfree, rfl⟩
  · rintro ⟨n, hn, hfree, rfl⟩
    obtain ⟨t, ht, hn⟩ := (h.mem n).mp hn
    exact ⟨t, ht, ((h.firm t ht).mem_names.mp hn).1.symm.trans hfree, List.mem_map_of_mem hn⟩

/-- **In a context both find the same.** -/
theorem here (g : Graph) (filter : DeclFilter) (data : Context) (position : Option Position) :
    SameMembers (g.declarationsHere filter data tries position).value
      (g.flatHere filter data names position) := by
  unfold Graph.declarationsHere Graph.flatHere
  split
  · exact .refl []
  · intro r
    rw [Noted.value_gatherM]
    simp only [List.mem_flatMap, List.mem_filter, List.mem_filterMap]
    constructor
    · rintro ⟨t, ⟨ht, htest⟩, hr⟩
      obtain ⟨n, hn⟩ := NameTrie.exists_mem_names t
      have hlone := ((h.firm t ht).lone? hn).mpr ⟨htest, rfl⟩
      exact ⟨t.segment, ⟨n, (h.mem n).mpr ⟨t, ht, hn⟩, hlone⟩, hr⟩
    · rintro ⟨s, ⟨n, hn, hs⟩, hr⟩
      obtain ⟨t, ht, hn⟩ := (h.mem n).mp hn
      obtain ⟨htest, rfl⟩ := ((h.firm t ht).lone? hn).mp hs
      exact ⟨t, ⟨ht, htest⟩, hr⟩

end Spells

/-! ## 3. Imports and aliases of a context -/

namespace Graph

/-- All namespace imports and aliases lead to plain names. -/
def PlainAliases (g : Graph) : Prop :=
  ∀ d data target, g.declaration? d = some data → data.kind.namespaceTarget = some target →
    target.Plain

instance (g : Graph) : Decidable g.PlainAliases :=
  decidable_of_iff (∀ e ∈ g.declarations.entries, ∀ target ∈ e.2.kind.namespaceTarget, target.Plain)
    ⟨fun h d data target hd htarget => h (d, data) (Store.mem_entries_iff.mpr hd) target htarget,
      fun h e he target htarget => h e.1 e.2 target (Store.mem_entries_iff.mp he) htarget⟩

variable {g : Graph} {c : ContextId} {position : Option Position} {t : NameTrie} {n n' : QualName}

theorem PlainAliases.plain (hg : g.PlainAliases) {ds : List DeclId} {target : QualName}
    (h : target ∈ (g.aliasTargets position ds).value) : target.Plain := by
  unfold aliasTargets at h
  rw [Noted.value_gatherM] at h
  obtain ⟨d, _, hd⟩ := List.mem_flatMap.mp h
  have htarget : (g.aliasTarget position d).value = some target := Option.mem_toList.mp hd
  unfold aliasTarget liveDeclaration at htarget
  cases hdata : g.declaration? d with
  | none =>
    rw [hdata] at htarget
    cases htarget
  | some data =>
    rw [hdata] at htarget
    have htarget : (if isAfter data.range.stop position then none else data.kind.namespaceTarget) =
      some target := htarget
    split at htarget
    · cases htarget
    · exact hg d data target hdata htarget

/-- What a context renames the first segment of a trie to. -/
def trieRenames (g : Graph) (c : ContextId) (position : Option Position) (t : NameTrie) :
    List QualName :=
  (g.aliasTargets position (if mayRename false t then g.indexed c t.segment else [])).value

/-- Aliases for the first segment are those for the root of the trie. -/
theorem flatRenames_eq (ht : t.Firm) (hn : n ∈ t.names) :
    g.flatRenames c position n = g.trieRenames c position t := by
  obtain ⟨_, p, hp, he⟩ := ht.mem_names.mp hn
  have hnil := hp.eq_nil_iff ht.next
  have hfull : t.isEmpty = false := by simpa [NameTrie.isEmpty] using ht.segment
  unfold flatRenames trieRenames mayRename NameTrie.hasNext
  rw [he, hfull]
  cases p with
  | nil =>
    rw [hnil.mp rfl]
    rfl
  | cons s p =>
    have hnext : t.next ≠ [] := fun e => List.cons_ne_nil s p (hnil.mpr e)
    simp [hnext]

theorem flatAliased_rooted (h : n.rooted = true) : g.flatAliased c position n = [n] := by
  unfold flatAliased
  rw [if_pos h]

theorem mem_flatAliased (h : n.rooted = false) : n' ∈ g.flatAliased c position n ↔
    (∃ q ∈ (g.aliasTargets position (g.indexed c .globalImport)).value, q.join n = n') ∨
    (∃ q ∈ g.flatRenames c position n, q.join { path := n.path.tail } = n') ∨
    g.flatRenames c position n = [] ∧ n = n' := by
  unfold flatAliased
  rw [if_neg (by rw [h]; decide)]
  dsimp only
  rw [List.mem_append, List.mem_append, or_assoc, List.mem_map, List.mem_map]
  refine or_congr Iff.rfl (or_congr Iff.rfl ?_)
  cases g.flatRenames c position n <;> simp [eq_comm]

theorem value_aliasedItem_rooted (h : t.rooted = true) :
    (g.aliasedItem c position false t).value = [t] := by
  unfold aliasedItem
  rw [h]
  rfl

theorem mem_aliasedItem {t' : NameTrie} (h : t.rooted = false) :
    t' ∈ (g.aliasedItem c position false t).value ↔
      (∃ q ∈ (g.aliasTargets position (g.indexed c .globalImport)).value,
        NameTrie.under q t = t') ∨
      (∃ q ∈ g.trieRenames c position t, NameTrie.underAll q t.next = t') ∨
      g.trieRenames c position t = [] ∧ t = t' := by
  have hvalue : (g.aliasedItem c position false t).value =
      (g.aliasTargets position (g.indexed c .globalImport)).value.map (NameTrie.under · t) ++
        (g.trieRenames c position t).map (NameTrie.underAll · t.next) ++
        if (g.trieRenames c position t).isEmpty then [t] else [] := by
    unfold aliasedItem
    rw [h]
    rfl
  rw [hvalue, List.mem_append, List.mem_append, or_assoc, List.mem_map, List.mem_map]
  refine or_congr Iff.rfl (or_congr Iff.rfl ?_)
  cases g.trieRenames c position t <;> simp [eq_comm]

/-- **A context makes of a trie what it makes of its names.** -/
theorem exists_mem_aliasedItem (hg : g.PlainAliases) (ht : t.Firm) :
    (∃ t' ∈ (g.aliasedItem c position false t).value, n' ∈ t'.names) ↔
      ∃ n ∈ t.names, n' ∈ g.flatAliased c position n := by
  have hrooted : ∀ n ∈ t.names, n.rooted = t.rooted := fun n hn => (ht.mem_names.mp hn).1
  cases hfree : t.rooted with
  | true =>
    rw [value_aliasedItem_rooted hfree]
    constructor
    · rintro ⟨t', ht', hn'⟩
      rw [List.mem_singleton.mp ht'] at hn'
      refine ⟨n', hn', ?_⟩
      rw [flatAliased_rooted ((hrooted n' hn').trans hfree)]
      exact List.mem_cons_self
    · rintro ⟨n, hn, hn'⟩
      rw [flatAliased_rooted ((hrooted n hn).trans hfree)] at hn'
      exact ⟨t, List.mem_cons_self, List.mem_singleton.mp hn' ▸ hn⟩
  | false =>
    constructor
    · rintro ⟨t', ht', hn'⟩
      rcases (mem_aliasedItem hfree).mp ht' with ⟨q, hq, rfl⟩ | ⟨q, hq, rfl⟩ | ⟨hnone, rfl⟩
      · obtain ⟨n, hn, rfl⟩ := (NameTrie.mem_names_under (hg.plain hq) ht).mp hn'
        exact ⟨n, hn, (mem_flatAliased ((hrooted n hn).trans hfree)).mpr (.inl ⟨q, hq, rfl⟩)⟩
      · obtain ⟨n, hn, rfl⟩ := ((NameTrie.firm_underAll (hg.plain hq) ht).2 n').mp hn'
        rw [← flatRenames_eq ht hn] at hq
        exact ⟨n, hn, (mem_flatAliased ((hrooted n hn).trans hfree)).mpr (.inr (.inl ⟨q, hq, rfl⟩))⟩
      · rw [← flatRenames_eq ht hn'] at hnone
        exact ⟨n', hn', (mem_flatAliased ((hrooted n' hn').trans hfree)).mpr
          (.inr (.inr ⟨hnone, rfl⟩))⟩
    · rintro ⟨n, hn, hn'⟩
      have hcases := (mem_flatAliased ((hrooted n hn).trans hfree)).mp hn'
      rw [flatRenames_eq ht hn] at hcases
      rcases hcases with ⟨q, hq, he⟩ | ⟨q, hq, he⟩ | ⟨hnone, rfl⟩
      · exact ⟨_, (mem_aliasedItem hfree).mpr (.inl ⟨q, hq, rfl⟩),
          (NameTrie.mem_names_under (hg.plain hq) ht).mpr ⟨n, hn, he.symm⟩⟩
      · exact ⟨_, (mem_aliasedItem hfree).mpr (.inr (.inl ⟨q, hq, rfl⟩)),
          ((NameTrie.firm_underAll (hg.plain hq) ht).2 n').mpr ⟨n, hn, he.symm⟩⟩
      · exact ⟨t, (mem_aliasedItem hfree).mpr (.inr (.inr ⟨hnone, rfl⟩)), hn⟩

theorem firm_aliasedItem (hg : g.PlainAliases) (ht : t.Firm) :
    ∀ t' ∈ (g.aliasedItem c position false t).value, t'.Firm ∧ t'.rooted = t.rooted := by
  intro t' ht'
  cases hfree : t.rooted with
  | true =>
    rw [value_aliasedItem_rooted hfree] at ht'
    rw [List.mem_singleton.mp ht']
    exact ⟨ht, hfree⟩
  | false =>
    rcases (mem_aliasedItem hfree).mp ht' with ⟨q, hq, rfl⟩ | ⟨q, hq, rfl⟩ | ⟨_, rfl⟩
    · obtain ⟨hne, hfull, hplain⟩ := hg.plain hq
      exact ⟨NameTrie.firm_under hfull ht, (NameTrie.rooted_under hne t).trans hplain⟩
    · refine ⟨(NameTrie.firm_underAll (hg.plain hq) ht).1, ?_⟩
      exact (NameTrie.rooted_chain _ _ _).trans (hg.plain hq).2.2
    · exact ⟨ht, hfree⟩

/-- No name is lost without another one in its place. -/
theorem exists_mem_aliased (g : Graph) (c : ContextId) (position : Option Position)
    (h : t.rooted = false) : ∃ t', t' ∈ (g.aliasedItem c position false t).value := by
  cases hr : g.trieRenames c position t with
  | nil => exact ⟨t, (mem_aliasedItem h).mpr (.inr (.inr ⟨hr, rfl⟩))⟩
  | cons q rest =>
    exact ⟨_, (mem_aliasedItem h).mpr (.inr (.inl ⟨q, hr ▸ List.mem_cons_self, rfl⟩))⟩

end Graph

/-- **What a context makes of tries spells what it makes of the names.** -/
theorem Spells.aliased {tries : List NameTrie} {names : List QualName} (h : Spells tries names)
    {g : Graph} (hg : g.PlainAliases) (c : ContextId) (position : Option Position) :
    Spells (g.aliased c position false tries).value (names.flatMap (g.flatAliased c position)) := by
  have hvalue : (g.aliased c position false tries).value =
      tries.flatMap fun t => (g.aliasedItem c position false t).value := Noted.value_gatherM _ _
  rw [hvalue]
  refine ⟨fun t' ht' => ?_, ?_, fun n' => ?_⟩
  · obtain ⟨t, ht, ht'⟩ := List.mem_flatMap.mp ht'
    exact (Graph.firm_aliasedItem hg (h.firm t ht) t' ht').1
  · obtain ⟨t, ht, hfree⟩ := h.free
    obtain ⟨t', ht'⟩ := g.exists_mem_aliased c position hfree
    exact ⟨t', List.mem_flatMap.mpr ⟨t, ht, ht'⟩,
      (Graph.firm_aliasedItem hg (h.firm t ht) t' ht').2.trans hfree⟩
  · simp only [List.mem_flatMap, h.mem]
    constructor
    · rintro ⟨n, ⟨t, ht, hn⟩, hn'⟩
      obtain ⟨t', ht', hn'⟩ := (Graph.exists_mem_aliasedItem hg (h.firm t ht)).mpr ⟨n, hn, hn'⟩
      exact ⟨t', ⟨t, ht, ht'⟩, hn'⟩
    · rintro ⟨t', ⟨t, ht, ht'⟩, hn'⟩
      obtain ⟨n, hn, hn'⟩ := (Graph.exists_mem_aliasedItem hg (h.firm t ht)).mp ⟨t', ht', hn'⟩
      exact ⟨n, ⟨t, ht, hn⟩, hn'⟩

/-! ## 4. Out of a namespace -/

/-- The parts of a path from its start on, of one segment at least. -/
theorem mem_tail_inits {front path : Path} :
    front ∈ path.inits.tail ↔ front ≠ [] ∧ front <+: path := by
  cases path with
  | nil => simp
  | cons s rest =>
    rw [List.inits_cons, List.tail_cons, List.mem_map]
    constructor
    · rintro ⟨front', hfront', rfl⟩
      exact ⟨List.cons_ne_nil _ _,
        List.cons_prefix_cons.mpr ⟨rfl, (List.mem_inits _ _).mp hfront'⟩⟩
    · rintro ⟨hne, hfront⟩
      cases front with
      | nil => exact absurd rfl hne
      | cons s' front' =>
        obtain ⟨rfl, hrest⟩ := List.cons_prefix_cons.mp hfront
        exact ⟨front', (List.mem_inits _ _).mpr hrest, rfl⟩

/-- A name behind a part of the name of a namespace, with the path of what encloses
    the namespace in front, and meant from the root. -/
def Graph.Inside (g : Graph) (data : Context) (names : List QualName) (n : QualName) : Prop :=
  n.rooted = true ∧ ∃ front, front ≠ [] ∧ front <+: data.scopeName.path ∧
    ∃ m ∈ names, m.rooted = false ∧ n.path = data.parent.elim [] g.scopePath ++ (front ++ m.path)

theorem Graph.mem_flatUpwards {g : Graph} {data : Context} {names : List QualName} {n : QualName}
    (hkind : data.kind = .nameSpace) :
    n ∈ g.flatUpwards data names ↔ g.Inside data names n ∨ n ∈ names := by
  unfold Graph.flatUpwards
  rw [if_pos hkind, List.mem_append, or_comm]
  refine or_congr_left ?_
  simp only [List.mem_flatMap, mem_tail_inits, List.mem_map, List.mem_filter]
  constructor
  · rintro ⟨front, ⟨hne, hfront⟩, m, ⟨hm, hfree⟩, rfl⟩
    exact ⟨rfl, front, hne, hfront, m, hm, by simpa using hfree, List.append_assoc _ _ _⟩
  · rintro ⟨hrooted, front, hne, hfront, m, hm, hfree, he⟩
    refine ⟨front, ⟨hne, hfront⟩, m, ⟨hm, by simpa using hfree⟩, ?_⟩
    exact QualName.ext (by rw [he, List.append_assoc]) hrooted.symm

/-- The names behind the parts of the name of a namespace, as one trie. -/
theorem Spells.inside {tries : List NameTrie} {names : List QualName} (h : Spells tries names)
    {g : Graph} (ht : g.outline.Tree) (hscopes : g.FullScopes) {c : ContextId} {data : Context}
    (hc : g.context? c = some data) (hne : data.scopeName.path ≠ []) :
    let inner := (NameTrie.ofName data.scopeName).graft tries
    let trie := (g.qualifiedBy inner (data.parent.elim [] g.lineage)).fromRoot
    inner.hasNext = true ∧ trie.Firm ∧ ∀ n, n ∈ trie.names ↔ g.Inside data names n := by
  obtain ⟨hinner, hnext, hpaths⟩ := NameTrie.firm_graft hne (hscopes c data hc) h.firm h.free
    data.scopeName.rooted
  have hfirm := (Graph.firm_qualifiedBy hscopes hinner (data.parent.elim [] g.lineage)).fromRoot
  refine ⟨hnext, hfirm, fun n => hfirm.mem_names_iff.trans ?_⟩
  rw [NameTrie.rooted_fromRoot, NameTrie.paths_fromRoot, Graph.mem_paths_qualifiedBy ht,
    Path.solid_eq_self (hscopes.scopePath data.parent)]
  refine and_congr Iff.rfl ?_
  constructor
  · rintro ⟨p, hp, he⟩
    obtain ⟨front, hfront, hprefix, q, hq, rfl⟩ := (hpaths p).mp hp
    obtain ⟨m, hm, hfree, rfl⟩ := h.freePath.mp hq
    exact ⟨front, hfront, hprefix, m, hm, hfree, he⟩
  · rintro ⟨front, hfront, hprefix, m, hm, hfree, he⟩
    exact ⟨front ++ m.path, (hpaths _).mpr ⟨front, hfront, hprefix, m.path,
      h.freePath.mpr ⟨m, hm, hfree, rfl⟩, rfl⟩, he⟩

/-- **Out of a context the tries spell the names again.** -/
theorem Spells.upwards {tries : List NameTrie} {names : List QualName} (h : Spells tries names)
    {g : Graph} (ht : g.outline.Tree) (hscopes : g.FullScopes) {c : ContextId} {data : Context}
    (hc : g.context? c = some data) :
    Spells (g.upwards data (data.parent.elim [] g.lineage) tries) (g.flatUpwards data names) := by
  by_cases hkind : data.kind = .nameSpace
  · by_cases hne : data.scopeName.path = []
    · have hflat : g.flatUpwards data names = names := by
        unfold Graph.flatUpwards
        rw [if_pos hkind, hne]
        exact List.append_nil names
      have htries : g.upwards data (data.parent.elim [] g.lineage) tries = tries := by
        unfold Graph.upwards QualName.isEmpty
        simp [hne]
      rw [hflat, htries]
      exact h
    · obtain ⟨hnext, hfirm, hmem⟩ := h.inside ht hscopes hc hne
      have htries : g.upwards data (data.parent.elim [] g.lineage) tries =
          (g.qualifiedBy ((NameTrie.ofName data.scopeName).graft tries)
            (data.parent.elim [] g.lineage)).fromRoot :: tries := by
        unfold Graph.upwards QualName.isEmpty
        simp [hkind, hne, hnext]
      obtain ⟨t, ht, hfree⟩ := h.free
      rw [htries]
      refine ⟨List.forall_mem_cons.mpr ⟨hfirm, h.firm⟩, ⟨t, List.mem_cons_of_mem _ ht, hfree⟩,
        fun n => ?_⟩
      rw [Graph.mem_flatUpwards hkind, h.mem, ← hmem]
      simp only [List.mem_cons, exists_eq_or_imp]
  · have hflat : g.flatUpwards data names = names := by
      unfold Graph.flatUpwards
      rw [if_neg hkind]
    have htries : g.upwards data (data.parent.elim [] g.lineage) tries = tries := by
      unfold Graph.upwards
      simp [hkind]
    rw [hflat, htries]
    exact h

/-! ## 5. The two searches -/

/-- A level of the search and one of the flat search that have found the same and go
    on with the same names, or are both over. -/
inductive LevelsAlike (g : Graph) (c : ContextId) :
    Level DeclId → List DeclId × Option (Context × List QualName) → Prop where
  | done {found found' : List DeclId} : SameMembers found found' →
      LevelsAlike g c (.done found) (found', none)
  | goOn {data : Context} {tries : List NameTrie} {names : List QualName}
      {found found' : List DeclId} : g.context? c = some data → Spells tries names →
      SameMembers found found' →
      LevelsAlike g c (.goOn data tries found) (found', some (data, names))

theorem LevelsAlike.found {g : Graph} {c : ContextId} {level : Level DeclId}
    {flat : List DeclId × Option (Context × List QualName)} (h : LevelsAlike g c level flat) :
    SameMembers level.found flat.1 := by
  cases h with
  | done h => exact h
  | goOn _ _ h => exact h

namespace Graph

open Query

/-- Descents into imports that find the same; no descent finds what was found
    before. -/
def DescentsAlike (g : Graph) (descent : Option (Descent DeclId)) (flat : FlatDescent) : Prop :=
  ∀ c tries names position found found', Spells tries names → SameMembers found found' →
    Alike g.Coherent SameMembers
      (descent.elim (pure found) fun descend => descend c tries position found)
      (flat c names position found')

variable {g : Graph} {tries : List NameTrie} {names : List QualName} {found found' : List DeclId}
  {descent : Option (Descent DeclId)} {flat : FlatDescent}

theorem alike_searchImport (hdescent : g.DescentsAlike descent flat) (h : Spells tries names)
    (hfound : SameMembers found found') (c : ContextId) (position : Option Position) (i : Import) :
    Alike g.Coherent SameMembers
      (descent.elim (pure found) fun descend => g.searchImport c tries position descend found i)
      (g.flatImport c names position flat found' i) := by
  unfold flatImport
  cases hi : g.context? i.context with
  | none =>
    cases descent with
    | none => exact alike_pure hfound
    | some descend =>
      rw [Option.elim_some, searchImport, hi]
      exact alike_warn_bind _ (alike_pure hfound)
  | some target =>
    have hinside := hdescent i.context tries names (g.positionIn c i target position) _ _ h hfound
    cases descent with
    | none =>
      dsimp only [Option.elim]
      split
      · exact alike_pure hfound
      · exact hinside
    | some descend =>
      rw [Option.elim_some, searchImport, hi]
      dsimp only
      split
      · exact alike_pure hfound
      · exact hinside

/-- **In what a context imports both find the same.** -/
theorem alike_searchImports (hdescent : g.DescentsAlike descent flat) (h : Spells tries names)
    (hfound : SameMembers found found') (c : ContextId) (data : Context)
    (position : Option Position) :
    Alike g.Coherent SameMembers (g.searchImports c data tries position descent found)
      (g.flatImports c data names position flat found') := by
  have htries : (tries.filter (!·.rooted)).isEmpty = false :=
    List.isEmpty_eq_false_iff.mpr h.unrooted.tries_ne_nil
  have hnames : (names.filter (!·.rooted)).isEmpty = false :=
    List.isEmpty_eq_false_iff.mpr h.unrooted.names_ne_nil
  have hstep := fun a a' i (ha : SameMembers a a') =>
    alike_searchImport hdescent h.unrooted ha c position i
  unfold searchImports flatImports
  dsimp only
  rw [htries, hnames, Bool.or_false, if_neg Bool.false_ne_true]
  cases hi : data.imports.isEmpty with
  | true =>
    rw [List.isEmpty_iff.mp hi]
    exact alike_pure hfound
  | false =>
    cases descent with
    | none => exact alike_warn_bind _ (alike_pure_foldlM hstep _ hfound)
    | some descend => exact alike_foldlM hstep _ hfound

/-- **At one level both find the same**, and go on with the same names. -/
theorem alike_searchLevel (hdepth : g.tops.length ≤ g.limits.importDepth) (hg : g.PlainAliases)
    (filter : DeclFilter) (hdescent : g.DescentsAlike descent flat) (h : Spells tries names)
    (hfound : SameMembers found found') (c : ContextId) (position : Option Position) :
    Alike g.Coherent (LevelsAlike g c)
      (g.searchLevel (g.declarationQuest filter) descent c tries position found)
      (g.flatLevel filter flat c names position found') := by
  unfold searchLevel flatLevel
  cases hc : g.context? c with
  | none => exact alike_warn_bind _ (alike_pure (.done hfound))
  | some data =>
    dsimp only
    split
    · next htop =>
      have htop : g.IsTop ⟨c⟩ := by
        unfold IsTop top?
        rw [hc]
        exact if_pos (Bool.and_eq_true_iff.mp htop).1
      have htable : Alike g.Coherent SameMembers (g.declarationsInTable filter ⟨c⟩ tries position)
          (g.declarationsUnder filter ⟨c⟩ (names.map (·.path)) position) := by
        rw [declarationsInTable_eq]
        exact alike_declarationsUnder hdepth htop filter position h.paths
      exact htable.bind fun _ _ hds => alike_pure (.done (hfound.append hds))
    · refine alike_lift_bind ?_
      have hhere := hfound.append (h.here g filter data position)
      refine alike_ite (congrArg (_ && !·) hhere.isEmpty) (alike_pure (.done hhere)) ?_
      refine alike_lift_bind ?_
      have hnames := h.aliased hg c position
      refine (alike_searchImports hdescent hnames hhere c data position).bind fun _ _ hall => ?_
      exact alike_ite (congrArg (!·) hall.isEmpty) (alike_pure (.done hall))
        (alike_pure (.goOn hc hnames hall))

section Walk

variable (hdepth : g.tops.length ≤ g.limits.importDepth) (hg : g.PlainAliases)
  (filter : DeclFilter)

include hdepth hg

/-- Through as many imports as may be both find the same. -/
theorem alike_descentAt (n : Nat) :
    g.DescentsAlike (g.descentAt (g.declarationQuest filter) n) (g.flatDescent filter n) := by
  induction n with
  | zero => exact fun _ _ _ _ _ _ _ hfound => alike_pure hfound
  | succ n ih =>
    intro c tries names position found found' h hfound
    have hlevel := alike_searchLevel hdepth hg filter ih h hfound c position
    cases n with
    | zero => exact hlevel.bind fun _ _ hl => alike_pure hl.found
    | succ n => exact hlevel.bind fun _ _ hl => alike_pure hl.found

/-- **Up the parents both find the same.** The chain is the lineage of a context or
    has come to its end. -/
theorem alike_searchUp (ht : g.outline.Tree) (hscopes : g.FullScopes) (climbs : Bool)
    (position : Option Position) (start : Option ContextId) {l : List ContextId}
    (hl : l = start.elim [] g.lineage) (h : Spells tries names)
    (hfound : SameMembers found found') :
    Alike g.Coherent SameMembers
      (g.searchUp (g.declarationQuest filter) climbs position l tries found)
      (g.flatUp filter climbs position l names found') := by
  induction l generalizing start tries names found found' with
  | nil => exact alike_pure hfound
  | cons c above ih =>
    have habove : above = (g.parent? c).elim [] g.lineage := by
      cases start with
      | none => cases hl
      | some x =>
        rw [Option.elim_some, lineage_unfold ht x] at hl
        obtain ⟨rfl, hl⟩ := List.cons_eq_cons.mp hl
        exact hl
    refine (alike_searchLevel hdepth hg filter (alike_descentAt hdepth hg filter _) h hfound c
      position).bind fun level flat hlevel => ?_
    cases hlevel with
    | done hdone => exact alike_pure hdone
    | @goOn data tries names _ _ hc hnames hgo =>
      refine alike_ite rfl ?_ (alike_pure hgo)
      refine ih (g.parent? c) habove ?_ hgo
      rw [habove, parent?_of_context? hc]
      exact hnames.upwards ht hscopes hc

/-- **The search and the flat search find the same**, whatever the memo holds. -/
theorem alike_findDeclarations (ht : g.outline.Tree) (hscopes : g.FullScopes) {name : QualName}
    (hname : name.Plain) (c : ContextId) (position : Option Position) (type : Option TypeId)
    (flags : SearchFlags) :
    Alike g.Coherent SameMembers (g.findDeclarations c name position type flags)
      (g.flatDeclarations c name position type flags) := by
  unfold findDeclarations search flatDeclarations
  refine alike_ite rfl ?_ (alike_warn_bind _ (alike_pure (.refl [])))
  exact (alike_searchUp hdepth hg _ ht hscopes _ position (some c) rfl (spells_ofName hname)
    (.refl [])).bind fun _ _ h => alike_pure h.eraseDups

end Walk

end Graph

/-! ## 6. After every sequence of calls -/

namespace Workspace

/-- **Tries of names make no difference.** After every sequence of calls a search for
    a plain name finds the same declarations as the flat search, as long as there
    are not more live tops than the walk from file to file is deep, all namespace
    imports and aliases lead to plain names, and no scope name has an empty
    segment. -/
theorem findDeclarations_flat (limits : Limits) (calls : List Call)
    (hfrees : (empty limits).FewFrees calls)
    (hdepth : ((empty limits).run calls).graph.tops.length ≤
      ((empty limits).run calls).graph.limits.importDepth)
    (haliases : ((empty limits).run calls).graph.PlainAliases)
    (hscopes : ((empty limits).run calls).graph.FullScopes)
    (c : ContextId) (name : QualName) (hname : name.Plain) (position : Option Position)
    (type : Option TypeId) (flags : SearchFlags) (d : DeclId) :
    let w := (empty limits).run calls
    d ∈ (w.ask (·.findDeclarations c name position type flags)).1 ↔
      d ∈ (w.ask (·.flatDeclarations c name position type flags)).1 := by
  intro w
  obtain ⟨_, hkept, _⟩ := kept_run hfrees
  have hcoherent := (faithful_run hfrees).coherent
  exact (Graph.alike_findDeclarations hdepth haliases hkept.kempt.consistent.tree hscopes hname c
    position type flags _ _ hcoherent hcoherent).1 d

/-- Of two files the second is registered and declares `N::x`; the first imports it,
    and has a namespace `A::B` in which a block imports the namespace `N`. -/
def importedNamespace : List Call :=
  [.change (.createTop ⟨0⟩ {}), .change (.createTop ⟨1⟩ {}),
    .change (.addImport ⟨0, 0⟩ ⟨1, 0⟩ none),
    .change (.createContext ⟨1, 0⟩ {}), .change (.setKind ⟨2, 0⟩ .nameSpace),
    .change (.setScopeName ⟨2, 0⟩ { path := ["N"] }),
    .change (.declare ⟨2, 0⟩ "x" {} .ordinary), .change (.register ⟨⟨1, 0⟩⟩),
    .change (.createContext ⟨0, 0⟩ {}), .change (.setKind ⟨3, 0⟩ .nameSpace),
    .change (.setScopeName ⟨3, 0⟩ { path := ["A", "B"] }),
    .change (.createContext ⟨3, 0⟩ {}),
    .change (.declare ⟨4, 0⟩ .globalImport {} (.namespaceAlias { path := ["N"] }))]

/-- In the block `x` is found in the other file, with tries and with plain names. -/
theorem findDeclarations_flat_imported :
    let w := (empty { importDepth := 2 }).run importedNamespace
    (w.ask (·.findDeclarations ⟨4, 0⟩ { path := ["x"] } none none {})).1 = [⟨0, 0⟩] ∧
      ⟨0, 0⟩ ∈ (w.ask (·.flatDeclarations ⟨4, 0⟩ { path := ["x"] } none none {})).1 := by
  have hsame := findDeclarations_flat { importDepth := 2 } importedNamespace
    (fewFrees_of_length (by decide)) (by decide +kernel) (by decide +kernel) (by decide +kernel)
    ⟨4, 0⟩ { path := ["x"] } (by decide) none none {}
  exact ⟨by decide +kernel, (hsame _).mp (by decide +kernel)⟩

end Workspace

end ScopeGraph
