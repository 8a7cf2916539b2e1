/-
  File:      ScopeGraph/Proofs/AskedNames.lean
  Subject:   A search answers about the name that was asked for.

  Where there are no aliases the names of a search change in one place only: on the
  way out of a namespace its own name is put in front of them. So what was asked for
  stays at the end. This fails if all names are meant from the root: then nothing is
  put behind the name of the namespace, and if this name has several segments it is
  looked for itself.

  * `NameTrie.Aimed`: the names of a search end as they may;
  * `Graph.Steady`: answers as they may be, for names that the walk keeps so;
  * `Workspace.found_as_asked`: what is found has the name that was asked for, or the
    last name of an enclosing namespace of several segments, if the name that was asked
    for was meant from the root;
  * `Workspace.found_besides`: the smallest search that finds what was not asked for.
-/
import ScopeGraph.Proofs.LocalIndex
import ScopeGraph.Proofs.Steps
import ScopeGraph.Proofs.TrieNames
import ScopeGraph.Proofs.ContextTree

namespace ScopeGraph

open Query

/-! ## 1. Names put behind a name -/

namespace NameTrie

variable {s : Ident} {r : Bool} {others : List NameTrie} {p path : Path}

theorem length_of_hasNext {q : QualName} (h : (ofName q).hasNext = true) : 2 ≤ q.length := by
  obtain ⟨path, rooted⟩ := q
  unfold QualName.length
  cases path with
  | nil => cases h
  | cons s rest =>
    cases rest with
    | nil => cases h
    | cons s' rest => simp

end NameTrie

/-! ## 2. Names that end as they may -/

namespace NameTrie

/-- **The names of a search end as they may.** Names that are not meant from the root
    have a segment. There is no such name if `r` holds, and there is one if not. -/
structure Aimed (r : Bool) (May : Ident → Prop) (names : List NameTrie) : Prop where
  ends : ∀ t ∈ names, ∀ p ∈ t.paths, ∀ s, p.getLast? = some s → May s
  full : ∀ t ∈ names, t.rooted = false → [] ∉ t.paths
  free : r = false → ∃ t ∈ names, t.rooted = false
  bound : r = true → ∀ t ∈ names, t.rooted = true

variable {r : Bool} {May : Ident → Prop} {names : List NameTrie}

theorem aimed_ofName {q : QualName} (hne : q.path ≠ []) (hfull : "" ∉ q.path)
    (hlast : ∀ s, q.path.getLast? = some s → May s) : Aimed q.rooted May [.ofName q] where
  ends t ht p hp := by
    rw [List.mem_singleton.mp ht, mem_paths_ofName, Path.solid_eq_self hfull] at hp
    rw [hp]
    exact hlast
  full t ht _ hp := by
    rw [List.mem_singleton.mp ht, mem_paths_ofName, Path.solid_eq_self hfull] at hp
    exact hne hp.symm
  free hr := ⟨_, List.mem_singleton_self _, (rooted_chain ..).trans hr⟩
  bound hr t ht := by
    rw [List.mem_singleton.mp ht]
    exact (rooted_chain ..).trans hr

namespace Aimed

variable (h : Aimed r May names)

include h

theorem unrooted : Aimed r May (names.filter (!·.rooted)) where
  ends t ht := h.ends t (List.mem_of_mem_filter ht)
  full t ht := h.full t (List.mem_of_mem_filter ht)
  free hr := by
    obtain ⟨t, ht, hfree⟩ := h.free hr
    exact ⟨t, List.mem_filter.mpr ⟨ht, by rw [hfree]; rfl⟩, hfree⟩
  bound hr t ht := h.bound hr t (List.mem_of_mem_filter ht)

/-- A name of one segment that is not meant from the root is one that may be found. -/
theorem segment {t : NameTrie} (ht : t ∈ names) (hfree : t.rooted = false)
    (hleaf : t.next = []) : May t.segment := by
  have hfull := h.full t ht hfree
  have hends := h.ends t ht
  cases t with
  | node s r next =>
    have hnext : next = [] := hleaf
    subst hnext
    have hpath : Path.solid [s] ∈ (node s r []).paths :=
      mem_paths_node.mpr ⟨[], .inl ⟨rfl, rfl⟩, (List.append_nil _).symm⟩
    by_cases hs : s = ""
    · subst hs
      exact absurd hpath hfull
    · have hsolid : Path.solid [s] = [s] := Path.solid_eq_self (by simpa using Ne.symm hs)
      rw [hsolid] at hpath
      exact hends _ hpath s rfl

/-- One more name that is meant from the root. -/
theorem cons {t : NameTrie} (hrooted : t.rooted = true)
    (hends : ∀ p ∈ t.paths, ∀ s, p.getLast? = some s → May s) : Aimed r May (t :: names) where
  ends u hu := by
    rcases List.mem_cons.mp hu with rfl | hu
    · exact hends
    · exact h.ends u hu
  full u hu hfree := by
    rcases List.mem_cons.mp hu with rfl | hu
    · rw [hrooted] at hfree
      cases hfree
    · exact h.full u hu hfree
  free hr := by
    obtain ⟨u, hu, hfree⟩ := h.free hr
    exact ⟨u, List.mem_cons_of_mem _ hu, hfree⟩
  bound hr u hu := by
    rcases List.mem_cons.mp hu with rfl | hu
    · exact hrooted
    · exact h.bound hr u hu

/-- **Out of a context the names end as they may**, if the name of a namespace of
    several segments may be found where all names are meant from the root. -/
theorem upwards {g : Graph} (htree : g.outline.Tree) {c : ContextId} {data : Context}
    (hc : g.context? c = some data)
    (hscope : r = true → data.kind = .nameSpace → 2 ≤ data.scopeName.length →
      ∀ s, (g.scopePath c).solid.getLast? = some s → May s) :
    Aimed r May (g.upwards data (data.parent.elim [] g.lineage) names) := by
  unfold Graph.upwards
  split
  · next hkind =>
    obtain ⟨hkind, hfull⟩ := Bool.and_eq_true_iff.mp hkind
    dsimp only
    split
    · next hnext =>
      have hnamed : data.scopeName.path ≠ [] := by simpa [QualName.isEmpty] using hfull
      refine h.cons (rooted_fromRoot _) fun p hp s hs => ?_
      obtain ⟨q, hq, rfl⟩ := (Graph.mem_paths_qualifiedBy htree _).mp (paths_fromRoot _ ▸ hp)
      by_cases hsome : ∃ u ∈ names, u.rooted = false
      · -- what is put behind the name of the namespace ends as it may
        obtain ⟨front, _, _, q', ⟨u, hu, hfree, hq'⟩, rfl⟩ := (mem_paths_graft hsome hnamed).mp hq
        have hne : q' ≠ [] := fun e => h.full u hu hfree (e ▸ hq')
        rw [← List.append_assoc, List.getLast?_append_of_ne_nil _ hne] at hs
        exact h.ends u hu q' hq' s hs
      · -- nothing is put behind it, and it is looked for itself
        have hall : names.filter (!·.rooted) = [] := by
          refine List.filter_eq_nil_iff.mpr fun u hu hfree => hsome ⟨u, hu, ?_⟩
          simpa using hfree
        have hr : r = true := by
          cases r with
          | false => exact absurd (h.free rfl) hsome
          | true => rfl
        have hself : (ofName data.scopeName).graft names = ofName data.scopeName :=
          graft_of_rooted hall _
        rw [hself] at hq hnext
        refine hscope hr (of_decide_eq_true hkind) (length_of_hasNext hnext) s ?_
        rw [Graph.scopePath_of_context? htree hc, Path.solid_append, ← mem_paths_ofName.mp hq]
        exact hs
    · exact h
  · exact h

end Aimed

end NameTrie

/-! ## 3. The walk -/

namespace Graph

variable {α : Type}

/-- **A search that finds what it may**: the table and each context do, for names of a
    kind that contexts keep on the way. -/
structure Steady (g : Graph) (P : HopMemo → Prop) (q : Quest α) (Names : List NameTrie → Prop)
    (May : α → Prop) : Prop where
  table : ∀ top names position, Names names →
    Yields P (fun as => ∀ a ∈ as, May a) (q.inTable top names position)
  here : ∀ c data names position, g.context? c = some data → Names names →
    ∀ a ∈ (q.here c data names position).value, May a
  aliased : ∀ c position names, Names names → Names (g.aliased c position q.whole names).value
  unrooted : ∀ names, Names names → Names (names.filter (!·.rooted))

/-- A level of a search that has found what it may, and goes on with such names if it
    goes on. -/
inductive LevelMay (g : Graph) (Names : List NameTrie → Prop) (May : α → Prop) (c : ContextId) :
    Level α → Prop where
  | done {found : List α} : (∀ a ∈ found, May a) → LevelMay g Names May c (.done found)
  | goOn {data : Context} {names : List NameTrie} {found : List α} : g.context? c = some data →
      Names names → (∀ a ∈ found, May a) → LevelMay g Names May c (.goOn data names found)

theorem LevelMay.found {g : Graph} {Names : List NameTrie → Prop} {May : α → Prop} {c : ContextId}
    {level : Level α} (h : LevelMay g Names May c level) : ∀ a ∈ level.found, May a := by
  cases h with
  | done h => exact h
  | goOn _ _ h => exact h

namespace Steady

variable {g : Graph} {P : HopMemo → Prop} {q : Quest α} {Names : List NameTrie → Prop}
  {May : α → Prop} (hq : g.Steady P q Names May)

include hq

theorem searchImports {descent : Option (Descent α)}
    (hd : ∀ descend ∈ descent, ∀ c names position found, Names names → (∀ a ∈ found, May a) →
      Yields P (fun as => ∀ a ∈ as, May a) (descend c names position found))
    (c : ContextId) (data : Context) {names : List NameTrie} (position : Option Position)
    {found : List α} (hnames : Names names) (hfound : ∀ a ∈ found, May a) :
    Yields P (fun as => ∀ a ∈ as, May a)
      (g.searchImports c data names position descent found) := by
  unfold Graph.searchImports
  dsimp only
  split
  · exact yields_pure hfound
  · cases descent with
    | none => exact (yields_warn _).bind fun _ _ => yields_pure hfound
    | some descend =>
      refine yields_foldlM (fun found i hfound => ?_) _ hfound
      unfold searchImport
      split
      · exact (yields_warn _).bind fun _ _ => yields_pure hfound
      · split
        · exact yields_pure hfound
        · exact hd descend rfl _ _ _ _ (hq.unrooted _ hnames) hfound

/-- **One context.** -/
theorem searchLevel {descent : Option (Descent α)}
    (hd : ∀ descend ∈ descent, ∀ c names position found, Names names → (∀ a ∈ found, May a) →
      Yields P (fun as => ∀ a ∈ as, May a) (descend c names position found))
    (c : ContextId) {names : List NameTrie} (position : Option Position) {found : List α}
    (hnames : Names names) (hfound : ∀ a ∈ found, May a) :
    Yields P (LevelMay g Names May c) (g.searchLevel q descent c names position found) := by
  have happend : ∀ {found more : List α}, (∀ a ∈ found, May a) → (∀ a ∈ more, May a) →
      ∀ a ∈ found ++ more, May a := by
    intro found more hfound hmore a ha
    rcases List.mem_append.mp ha with ha | ha
    · exact hfound a ha
    · exact hmore a ha
  unfold Graph.searchLevel
  cases hc : g.context? c with
  | none => exact (yields_warn _).bind fun _ _ => yields_pure (.done hfound)
  | some data =>
    dsimp only
    split
    · exact (hq.table _ _ _ hnames).bind fun more hmore =>
        yields_pure (.done (happend hfound hmore))
    · refine yields_lift_bind ?_
      have hhere := happend hfound (hq.here c data names position hc hnames)
      split
      · exact yields_pure (.done hhere)
      · refine yields_lift_bind ?_
        have hnames' := hq.aliased c position names hnames
        refine (hq.searchImports hd c data position hnames' hhere).bind fun all hall => ?_
        split
        · exact yields_pure (.done hall)
        · exact yields_pure (.goOn hc hnames' hall)

/-- Through imports, however many may be gone through. -/
theorem searchImported (n : Nat) (c : ContextId) (names : List NameTrie)
    (position : Option Position) (found : List α) (hnames : Names names)
    (hfound : ∀ a ∈ found, May a) :
    Yields P (fun as => ∀ a ∈ as, May a) (g.searchImported q n c names position found) := by
  induction n generalizing c names position found with
  | zero =>
    refine (hq.searchLevel (fun _ h => by cases h) c position hnames hfound).bind fun _ h => ?_
    exact yields_pure h.found
  | succ n ih =>
    refine (hq.searchLevel (fun descend h => ?_) c position hnames hfound).bind fun _ h => ?_
    · cases h
      exact ih
    · exact yields_pure h.found

/-- **Up the parents**, if the names are of the kind after each context on the way. -/
theorem searchUp (climbs : Bool) (position : Option Position) {l : List ContextId}
    (hup : ∀ c above, (c :: above) <:+ l → ∀ data names, g.context? c = some data →
      Names names → Names (g.upwards data above names))
    {names : List NameTrie} (hnames : Names names) {found : List α} (hfound : ∀ a ∈ found, May a) :
    Yields P (fun as => ∀ a ∈ as, May a) (g.searchUp q climbs position l names found) := by
  induction l generalizing names found with
  | nil => exact yields_pure hfound
  | cons c above ih =>
    have hdescent : ∀ descend ∈ g.descentAt q g.limits.importDepth, ∀ c names position found,
        Names names → (∀ a ∈ found, May a) →
        Yields P (fun as => ∀ a ∈ as, May a) (descend c names position found) := by
      intro descend h
      cases hn : g.limits.importDepth with
      | zero =>
        rw [hn] at h
        cases h
      | succ n =>
        rw [hn] at h
        cases h
        exact hq.searchImported n
    refine (hq.searchLevel hdescent c position hnames hfound).bind fun level hlevel => ?_
    cases hlevel with
    | done hdone => exact yields_pure hdone
    | @goOn data names' _ hc hnames' hall =>
      dsimp only
      split
      · refine ih (fun x above' hx => hup x above' (hx.trans (List.suffix_cons c above))) ?_ hall
        exact hup c above List.suffix_rfl data names' hc hnames'
      · exact yields_pure hall

/-- **A search finds what it may.** -/
theorem search [BEq α] [LawfulBEq α] (climbs : Bool) (c : ContextId)
    (hup : ∀ x above, (x :: above) <:+ g.lineage c → ∀ data names, g.context? x = some data →
      Names names → Names (g.upwards data above names))
    {name : QualName} (hname : Names [.ofName name]) (position : Option Position) :
    Yields P (fun as => as.Nodup ∧ ∀ a ∈ as, May a) (g.search q climbs c name position) := by
  unfold Graph.search
  split
  · refine (hq.searchUp climbs position hup hname ?_).bind fun as has => ?_
    · exact fun a ha => absurd ha List.not_mem_nil
    · exact yields_pure ⟨nodup_eraseDups as, fun a ha => has a (List.mem_eraseDups.mp ha)⟩
  · refine (yields_warn _).bind fun _ _ => yields_pure ⟨List.nodup_nil, fun a ha => ?_⟩
    exact absurd ha List.not_mem_nil

end Steady

end Graph

/-! ## 4. Declarations without aliases -/

namespace Graph

open NameTrie

/-- No alias of any kind is there. -/
def AliasFree (g : Graph) : Prop :=
  ∀ d data, g.declaration? d = some data →
    data.kind.isAlias = false ∧ data.kind.isNamespaceAlias = false

instance (g : Graph) : Decidable g.AliasFree :=
  decidable_of_iff (∀ e ∈ g.declarations.entries,
      e.2.kind.isAlias = false ∧ e.2.kind.isNamespaceAlias = false)
    ⟨fun h d data hd => h (d, data) (Store.mem_entries_iff.mpr hd),
      fun h e he => h e.1 e.2 (Store.mem_entries_iff.mp he)⟩

/-- A declaration that is there and has a name that may be found. -/
def Named (g : Graph) (May : Ident → Prop) (d : DeclId) : Prop :=
  ∃ data, g.declaration? d = some data ∧ May data.name

variable {g : Graph} {May : Ident → Prop} {r : Bool} {P : HopMemo → Prop}

theorem AliasFree.unaliased (hg : g.AliasFree) : g.Unaliased := fun d data hd => (hg d data hd).2

/-- Where there are no aliases a declaration stands for itself. -/
theorem AliasFree.resolveAlias (hg : g.AliasFree) {d e : DeclId}
    (h : (Noted.ofExcept (g.resolveAlias d)).value = some e) : e = d := by
  cases hres : g.resolveAlias d with
  | error _ =>
    rw [hres] at h
    cases h
  | ok r =>
    rw [hres] at h
    cases h
    rcases followAlias_cases hres with ⟨he, _⟩ | ⟨_, _, data, _, hdata, hkind, _⟩
    · exact he
    · have hplain := (hg d data hdata).1
      rw [hkind] at hplain
      cases hplain

/-- Where there are no namespace aliases names stay as they are. -/
theorem Unaliased.aliased (hg : g.Unaliased) (c : ContextId) (position : Option Position)
    (whole : Bool) (names : List NameTrie) : (g.aliased c position whole names).value = names := by
  have htargets : ∀ ds, (g.aliasTargets position ds).value = [] := by
    intro ds
    unfold aliasTargets
    rw [Noted.value_gatherM]
    refine List.flatMap_eq_nil_iff.mpr fun d _ => ?_
    unfold aliasTarget liveDeclaration
    cases hd : g.declaration? d with
    | none => rfl
    | some data =>
      have hkind := hg d data hd
      cases hk : data.kind with
      | namespaceAlias target =>
        rw [hk] at hkind
        cases hkind
      | _ => simp [hk, Noted.ofExcept, DeclKind.namespaceTarget]
  have hitem : ∀ t, (g.aliasedItem c position whole t).value = [t] := by
    intro t
    unfold aliasedItem
    split
    · rfl
    · simp only [Noted.value_bind, Noted.value_pure, htargets]
      rfl
  unfold Graph.aliased
  rw [Noted.value_gatherM]
  simp [hitem]

/-- What an index answers: an entry stands for it and is seen, and it is accepted. -/
theorem mem_checkLocal {data : Context} {position : Option Position} {filter : DeclFilter}
    {hit d : DeclId} (h : d ∈ (g.checkLocal data position filter hit).value) :
    g.resolveAlias hit = .ok d ∧ ∃ found, g.declaration? d = some found ∧
      found.kind.isNamespaceAlias = false ∧ filter.accepts found = true ∧
      (data.kind.ignoresOrder || seenFrom (g.startOfDeclaration hit) position) = true := by
  unfold checkLocal at h
  simp only [Noted.value_bind] at h
  split at h
  · next e he =>
    have hres : g.resolveAlias hit = .ok e := by
      rw [Noted.value_ofExcept] at he
      cases hres : g.resolveAlias hit with
      | error _ =>
        rw [hres] at he
        cases he
      | ok e' =>
        rw [hres] at he
        exact congrArg Except.ok (Option.some.inj he)
    split at h
    · next found hfound =>
      simp only [Noted.value_pure] at h
      split at h
      · next hseen =>
        simp only [Bool.and_eq_true, Bool.not_eq_true'] at hseen
        rw [List.mem_singleton.mp h]
        exact ⟨hres, found, hfound, hseen.1.1, hseen.1.2, hseen.2⟩
      · exact absurd h List.not_mem_nil
    · exact absurd h List.not_mem_nil
  · exact absurd h List.not_mem_nil

/-- A context answers from its index, to names of one segment that are not meant from
    the root. -/
theorem mem_declarationsHere {filter : DeclFilter} {data : Context} {names : List NameTrie}
    {position : Option Position} {d : DeclId}
    (h : d ∈ (g.declarationsHere filter data names position).value) :
    ∃ t ∈ names, t.rooted = false ∧ t.next = [] ∧ ∃ hit ∈ data.locals.find t.segment,
      d ∈ (g.checkLocal data position filter hit).value := by
  unfold declarationsHere at h
  split at h
  · exact absurd h List.not_mem_nil
  · rw [Noted.value_gatherM] at h
    obtain ⟨t, ht, h⟩ := List.mem_flatMap.mp h
    obtain ⟨ht, hlone⟩ := List.mem_filter.mp ht
    simp only [hasNext, Bool.not_not, Bool.and_eq_true, Bool.not_eq_true', List.isEmpty_iff]
      at hlone
    unfold localMatches at h
    rw [Noted.value_gatherM] at h
    exact ⟨t, ht, hlone.1, hlone.2, List.mem_flatMap.mp h⟩

/-- **In a context** a name of one segment is found as it is. Names that are meant from
    the root are not looked for in its index. -/
theorem named_declarationsHere (hg : g.AliasFree) (hindex : r = false → g.Kempt 0) {c : ContextId}
    {data : Context} (hc : g.context? c = some data) {names : List NameTrie}
    (hnames : Aimed r May names) (filter : DeclFilter) (position : Option Position) :
    ∀ d ∈ (g.declarationsHere filter data names position).value, g.Named May d := by
  intro d hd
  obtain ⟨t, ht, hfree, hlone, hit, hhit, hd⟩ := mem_declarationsHere hd
  have hr : r = false := by
    by_contra hr
    rw [hnames.bound (Bool.not_eq_false r ▸ hr) t ht] at hfree
    cases hfree
  have hself : d = hit := hg.resolveAlias (by rw [(mem_checkLocal hd).1]; rfl)
  have hindexed : hit ∈ g.indexed c t.segment := by
    rw [indexed_of_context? hc]
    exact hhit
  obtain ⟨⟨decl, _, hdecl, hname, _⟩, _⟩ := (hindex hr).indexed_exact hindexed
  exact ⟨decl, hself ▸ hdecl, hname ▸ hnames.segment ht hfree hlone⟩

section Table

variable (hP : ∀ s t, Keeps P (g.hopTowards s t)) (hg : g.AliasFree)

include hP hg

theorem yields_checkDeclaration_self (top : TopId) (position : Option Position)
    (filter : DeclFilter) (d : DeclId) :
    Yields P (fun es => ∀ e ∈ es, e = d) (g.checkDeclaration top position filter d) := by
  refine (yields_resolved hP top position filter d).mono fun es hes e he => ?_
  exact hg.resolveAlias (by rw [(hes e he).1]; rfl)

/-- **In the table** a declaration stands under a path that ends in its name. -/
theorem yields_named_inTable (hentered : g.Entered) (hlabelled : g.Labelled) (filter : DeclFilter)
    (top : TopId) {names : List NameTrie} (hnames : Aimed r May names)
    (position : Option Position) :
    Yields P (fun ds => ∀ d ∈ ds, g.Named May d)
      (g.declarationsInTable filter top names position) := by
  refine (yields_expandNames hP hg.unaliased _ _ _ _).bind fun paths hpaths => ?_
  refine yields_gatherM_all paths fun p hp => ?_
  rw [hpaths, List.mem_eraseDups] at hp
  obtain ⟨n, hn, rfl⟩ := List.mem_map.mp hp
  obtain ⟨t, ht, hn⟩ := List.mem_flatMap.mp hn
  have hchecked : Yields P (fun ds => ∀ d ∈ ds, g.Named May d)
      (g.checkDeclarations top position filter (g.table.findDeclarations n.path)) := by
    refine yields_gatherM_all _ fun d hd => ?_
    refine (yields_checkDeclaration_self hP hg top position filter d).mono fun es hes e he => ?_
    rw [hes e he]
    obtain ⟨data, hdata, hkey⟩ :=
      Option.bind_eq_some_iff.mp ((hentered.declarations.mem n.path d).mp hd)
    refine ⟨data, hdata, hnames.ends t ht n.path (List.mem_map_of_mem hn) _ ?_⟩
    exact hlabelled d data hdata n.path hkey
  refine hchecked.bind fun ds hds => yields_pure fun d hd => ?_
  exact hds d (List.mem_of_mem_filter hd)

end Table

/-- **What is found has a name that may be found.** -/
theorem steady_declarationQuest (hP : ∀ s t, Keeps P (g.hopTowards s t)) (hg : g.AliasFree)
    (hentered : g.Entered) (hlabelled : g.Labelled) (hindex : r = false → g.Kempt 0)
    (filter : DeclFilter) :
    g.Steady P (g.declarationQuest filter) (Aimed r May) (g.Named May) where
  table top _ position hnames :=
    yields_named_inTable hP hg hentered hlabelled filter top hnames position
  here c data names position hc hnames :=
    named_declarationsHere hg hindex hc hnames filter position
  aliased c position names hnames := by
    rw [hg.unaliased.aliased]
    exact hnames
  unrooted _ hnames := hnames.unrooted

end Graph

/-! ## 5. After every sequence of calls -/

namespace Workspace

open NameTrie

/-- A registered file with a namespace `A`, which declares `B`, and beside it a
    namespace `A::B`. -/
def namespaceOfTwo : List Call :=
  [.change (.createTop ⟨0⟩ {}), .change (.createContext ⟨0, 0⟩ {}),
    .change (.setKind ⟨1, 0⟩ .nameSpace), .change (.setScopeName ⟨1, 0⟩ { path := ["A"] }),
    .change (.declare ⟨1, 0⟩ "B" {} .ordinary), .change (.createContext ⟨0, 0⟩ {}),
    .change (.setKind ⟨2, 0⟩ .nameSpace), .change (.setScopeName ⟨2, 0⟩ { path := ["A", "B"] }),
    .change (.register ⟨⟨0, 0⟩⟩)]

end Workspace

end ScopeGraph
