/-
  File:      ScopeGraph/Proofs/Shadowing.lean
  Subject:   A search goes up the parents as far as the first context that answers.

  A search takes the name that was asked for from context to context. What namespaces
  add to it on the way out is meant from the root, and only a registered file looks
  for such names. So where no file is registered, nothing is imported and nothing is
  renamed, each context is asked for the one name, and the first one that has an answer
  hides all above it. A namespace has no answer of its own.

  * `Graph.Ascends`: the contexts on the way from one up to another;
  * `NameTrie.Sole`: one name is looked for where it is, and all others from the root;
  * `Graph.yields_searchUp_ascends`: a search passes through contexts that are mute;
  * `Workspace.nearest_answers`: what a search finds is what the first context that
    answers has.
-/
import ScopeGraph.Proofs.AskedNames

namespace ScopeGraph

open Query

/-! ## 1. From a context upwards -/

namespace Graph

/-- The second context is at or above the first one. In between are the contexts from
    the first one on, without the second one. -/
inductive Ascends (g : Graph) : ContextId → List ContextId → ContextId → Prop where
  | here (c : ContextId) : Ascends g c [] c
  | up {c p a : ContextId} {below : List ContextId} :
      g.parent? c = some p → Ascends g p below a → Ascends g c (c :: below) a

variable {g : Graph} {c a : ContextId} {below : List ContextId}

/-- Whatever is below another context is there. -/
theorem Ascends.live (h : g.Ascends c below a) : ∀ b ∈ below, ∃ data, g.context? b = some data := by
  induction h with
  | here => exact fun b hb => absurd hb List.not_mem_nil
  | up hp _ ih =>
    refine List.forall_mem_cons.mpr ⟨?_, ih⟩
    obtain ⟨data, hdata, _⟩ := Option.bind_eq_some_iff.mp hp
    exact ⟨data, hdata⟩

theorem Ascends.lineage (ht : g.outline.Tree) (h : g.Ascends c below a) :
    g.lineage c = below ++ g.lineage a := by
  induction h with
  | here => rfl
  | up hp _ ih => rw [lineage_unfold ht, hp, Option.elim_some, ih, List.cons_append]

theorem Ascends.mem_lineage (ht : g.outline.Tree) (h : g.Ascends c below a) : a ∈ g.lineage c := by
  rw [h.lineage ht, lineage_unfold ht]
  exact List.mem_append_right below List.mem_cons_self

/-- A context on the way parts it in two. -/
theorem Ascends.part (h : g.Ascends c below a) {b : ContextId} (hb : b ∈ below) :
    ∃ low high, below = low ++ high ∧ g.Ascends c low b ∧ g.Ascends b high a := by
  induction h with
  | here => exact absurd hb List.not_mem_nil
  | @up c p a below hp hup ih =>
    rcases List.mem_cons.mp hb with rfl | hb
    · exact ⟨[], b :: below, rfl, .here b, .up hp hup⟩
    · obtain ⟨low, high, hparts, hlow, hhigh⟩ := ih hb
      exact ⟨c :: low, high, by rw [hparts, List.cons_append], .up hp hlow, hhigh⟩

theorem Ascends.trans {b : ContextId} {high : List ContextId} (h : g.Ascends c below b)
    (h' : g.Ascends b high a) : g.Ascends c (below ++ high) a := by
  induction h with
  | here => exact h'
  | up hp _ ih => exact .up hp (ih h')

/-- There is one way up from a context to another. -/
theorem Ascends.unique (ht : g.outline.Tree) {low : List ContextId} (h : g.Ascends c low a)
    (h' : g.Ascends c below a) : low = below := by
  have hlineage := h.lineage ht
  rw [h'.lineage ht] at hlineage
  exact (List.append_cancel_right hlineage).symm

/-- The way leads to each context on it. -/
theorem Ascends.ascends_of_mem (h : g.Ascends c below a) {b : ContextId} (hb : b ∈ below ++ [a]) :
    ∃ low, g.Ascends c low b := by
  rcases List.mem_append.mp hb with hb | hb
  · obtain ⟨low, _, _, hlow, _⟩ := h.part hb
    exact ⟨low, hlow⟩
  · exact ⟨below, (List.mem_singleton.mp hb) ▸ h⟩

theorem Ascends.self_mem (h : g.Ascends c below a) (hne : below ≠ []) : c ∈ below := by
  cases h with
  | here => exact absurd rfl hne
  | up => exact List.mem_cons_self

/-- There is a first context on the way that is of some kind, if one is. -/
theorem Ascends.exists_first {p : ContextId → Prop} (h : g.Ascends c below a)
    (hany : ∃ b ∈ below, p b) :
    ∃ low b, g.Ascends c low b ∧ b ∈ below ∧ (∀ x ∈ low, ¬ p x) ∧ p b := by
  induction h with
  | here =>
    obtain ⟨b, hb, _⟩ := hany
    exact absurd hb List.not_mem_nil
  | @up c q a below hq hup ih =>
    by_cases hc : p c
    · exact ⟨[], c, .here c, List.mem_cons_self, nofun, hc⟩
    · obtain ⟨b, hb, hpb⟩ := hany
      have hb : b ∈ below := (List.mem_cons.mp hb).resolve_left fun e => hc (e ▸ hpb)
      obtain ⟨low, b, hlow, hb, hmute, hpb⟩ := ih ⟨b, hb, hpb⟩
      exact ⟨c :: low, b, .up hq hlow, List.mem_cons_of_mem c hb,
        List.forall_mem_cons.mpr ⟨hc, hmute⟩, hpb⟩

/-- Every chain of parents has an end. -/
theorem exists_root (ht : g.outline.Tree) (c : ContextId) :
    ∃ below a, g.Ascends c below a ∧ g.parent? a = none := by
  obtain ⟨l, hl⟩ := ht.line c
  induction hl with
  | @root c hr => exact ⟨[], c, .here c, (parent?_eq c).trans hr⟩
  | @step c p _ hs _ ih =>
    obtain ⟨below, a, hup, ha⟩ := ih
    exact ⟨c :: below, a, .up ((parent?_eq c).trans hs) hup, ha⟩

end Graph

/-! ## 2. One name among names from the root -/

namespace NameTrie

/-- One name is looked for where it is, and all others from the root. -/
def Sole (q : QualName) (names : List NameTrie) : Prop := names.filter (!·.rooted) = [ofName q]

variable {q : QualName} {names : List NameTrie}

theorem sole_ofName (hq : q.rooted = false) : Sole q [ofName q] := by
  have hrooted : (ofName q).rooted = false := (rooted_chain ..).trans hq
  simp [Sole, hrooted]

namespace Sole

variable (h : Sole q names)

include h

theorem mem : ofName q ∈ names := by
  have hmem : ofName q ∈ names.filter (!·.rooted) := by
    rw [h]
    exact List.mem_singleton_self _
  exact List.mem_of_mem_filter hmem

theorem free : (ofName q).rooted = false := by
  have hmem : ofName q ∈ names.filter (!·.rooted) := by
    rw [h]
    exact List.mem_singleton_self _
  simpa using (List.mem_filter.mp hmem).2

theorem eq_of_free {t : NameTrie} (ht : t ∈ names) (hfree : t.rooted = false) : t = ofName q := by
  have hmem : t ∈ names.filter (!·.rooted) := List.mem_filter.mpr ⟨ht, by rw [hfree]; rfl⟩
  rw [h] at hmem
  exact List.mem_singleton.mp hmem

/-- What a namespace adds on the way out is meant from the root. -/
theorem upwards (g : Graph) (data : Context) (above : List ContextId) :
    Sole q (g.upwards data above names) := by
  unfold Graph.upwards
  split
  · dsimp only
    split
    · unfold Sole
      rw [List.filter_cons_of_neg (by rw [rooted_fromRoot]; decide)]
      exact h
    · exact h
  · exact h

/-- A context looks up the one name, unless it has further segments. -/
theorem declarationsHere (g : Graph) (filter : DeclFilter) (data : Context)
    (position : Option Position) :
    (g.declarationsHere filter data names position).value =
      if data.kind = .nameSpace ∨ (ofName q).hasNext = true then [] else
        (g.localMatches data (ofName q).segment position filter).value := by
  have hfilter : (names.filter fun t => !t.rooted && !t.hasNext) =
      [ofName q].filter fun t => !t.hasNext := by
    rw [← h, List.filter_filter]
    exact List.filter_congr fun t _ => Bool.and_comm _ _
  unfold Graph.declarationsHere
  split
  · next hkind => rw [if_pos (.inl hkind)]; rfl
  · next hkind =>
    rw [hfilter, Noted.value_gatherM]
    by_cases hnext : (ofName q).hasNext = true
    · simp [hnext]
    · simp [hnext, hkind]

end Sole

end NameTrie

/-! ## 3. Through contexts that do not answer -/

theorem SearchFlags.climbs_eq_true {flags : SearchFlags} (hparents : flags.skipParents = false)
    (himported : flags.imported = false) : flags.climbs = true := by
  unfold climbs
  rw [hparents, himported]
  rfl

namespace Graph

variable {g : Graph} {P : HopMemo → Prop} {α : Type} {quest : Quest α} {c a : ContextId}
  {below : List ContextId} {names : List NameTrie} {position : Option Position}

/-- In a context that is gone a search ends. -/
theorem yields_searchLevel_stale (hc : g.context? c = none) (quest : Quest α)
    (descent : Option (Descent α)) (names : List NameTrie) (position : Option Position)
    (found : List α) : Yields P (· = .done found)
      (g.searchLevel quest descent c names position found) := by
  unfold searchLevel
  rw [hc]
  exact (yields_warn _).bind fun _ _ => yields_pure rfl

/-- A context that a search takes for what it is: it is not a registered file, imports
    nothing, and leaves the names as they are. -/
structure Plain (g : Graph) (quest : Quest α) (position : Option Position) (c : ContextId)
    (data : Context) (names : List NameTrie) : Prop where
  unregistered : (data.isTop && data.registered) = false
  imports : data.imports = []
  aliased : (g.aliased c position quest.whole names).value = names

/-- **A plain context** has an answer of its own, or it sends the search on with the
    names as they were. -/
theorem Plain.yields_searchLevel {data : Context} (h : g.Plain quest position c data names)
    (hc : g.context? c = some data) (hfirst : quest.firstOnly = true)
    (descent : Option (Descent α)) :
    Yields P (· = if (quest.here c data names position).value.isEmpty then .goOn data names [] else
        .done (quest.here c data names position).value)
      (g.searchLevel quest descent c names position []) := by
  unfold searchLevel
  rw [hc, hfirst]
  dsimp only
  rw [h.unregistered]
  refine yields_lift_bind ?_
  rw [List.nil_append]
  generalize (quest.here c data names position).value = here
  generalize hlevel : (if here.isEmpty then Level.goOn data names [] else .done here) = level
  split
  · next hfound =>
    have hsome : here.isEmpty = false := by
      simp only [Bool.true_and, Bool.and_eq_true] at hfound
      simpa using hfound.2
    rw [hsome] at hlevel
    exact yields_pure hlevel
  · refine yields_lift_bind ?_
    rw [h.aliased]
    unfold searchImports
    rw [h.imports]
    cases here with
    | nil => exact yields_pure hlevel
    | cons d rest => exact yields_pure hlevel

/-- The names of a search on the way out of a context. -/
def leaving (g : Graph) (names : List NameTrie) (c : ContextId) : List NameTrie :=
  match g.context? c with
  | some data => g.upwards data (data.parent.elim [] g.lineage) names
  | none => names

theorem sole_leaving {q : QualName} (h : NameTrie.Sole q names) (cs : List ContextId) :
    NameTrie.Sole q (cs.foldl g.leaving names) := by
  induction cs generalizing names with
  | nil => exact h
  | cons c rest ih =>
    refine ih ?_
    unfold leaving
    split
    · exact h.upwards g _ _
    · exact h

theorem leaving_of_context? {data : Context} (hc : g.context? c = some data) :
    g.leaving names c = g.upwards data (data.parent.elim [] g.lineage) names := by
  unfold leaving
  rw [hc]

/-- **A search passes through contexts that are plain and have no answer.** It comes to
    the context above them with what namespaces put in front of the names. -/
theorem yields_searchUp_ascends {Q : List α → Prop} {Names : List NameTrie → Prop}
    (ht : g.outline.Tree) (hfirst : quest.firstOnly = true)
    (hup : ∀ names data above, Names names → Names (g.upwards data above names))
    (h : g.Ascends c below a)
    (hmute : ∀ b ∈ below, ∀ data names, g.context? b = some data → Names names →
      g.Plain quest position b data names ∧ (quest.here b data names position).value = [])
    (hnames : Names names)
    (hrest : Yields P Q
      (g.searchUp quest true position (g.lineage a) (below.foldl g.leaving names) [])) :
    Yields P Q (g.searchUp quest true position (g.lineage c) names []) := by
  induction h generalizing names with
  | here => exact hrest
  | @up c p a below hp hup' ih =>
    obtain ⟨data, hc, hparent⟩ := Option.bind_eq_some_iff.mp hp
    obtain ⟨hplain, hnone⟩ := hmute c List.mem_cons_self data names hc hnames
    rw [lineage_unfold ht, hp, Option.elim_some]
    unfold searchUp
    refine (hplain.yields_searchLevel hc hfirst _).bind fun level hlevel => ?_
    rw [hnone] at hlevel
    rw [hlevel]
    have hleaving : g.leaving names c = g.upwards data (g.lineage p) names := by
      rw [leaving_of_context? hc, hparent, Option.elim_some]
    rw [List.foldl_cons, hleaving] at hrest
    exact ih (fun b hb => hmute b (List.mem_cons_of_mem c hb)) (hup names data _ hnames) hrest

/-- A search ends in a context that has an answer. -/
theorem yields_searchUp_answer (ht : g.outline.Tree) (hfirst : quest.firstOnly = true)
    {data : Context} (hc : g.context? c = some data) (hplain : g.Plain quest position c data names)
    (hsome : (quest.here c data names position).value ≠ []) :
    Yields P (· = (quest.here c data names position).value)
      (g.searchUp quest true position (g.lineage c) names []) := by
  rw [lineage_unfold ht]
  unfold searchUp
  refine (hplain.yields_searchLevel hc hfirst _).bind fun level hlevel => ?_
  have hsome' : (quest.here c data names position).value.isEmpty = false := by simpa using hsome
  rw [hsome'] at hlevel
  rw [hlevel]
  exact yields_pure rfl

/-- A search that goes no further than a context is answered by the context. -/
theorem yields_searchUp_last (hfirst : quest.firstOnly = true) {data : Context}
    (hc : g.context? c = some data) (hplain : g.Plain quest position c data names) {climbs : Bool}
    {above : List ContextId} (hlast : climbs = false ∨ above = []) :
    Yields P (· = (quest.here c data names position).value)
      (g.searchUp quest climbs position (c :: above) names []) := by
  unfold searchUp
  refine (hplain.yields_searchLevel hc hfirst _).bind fun level hlevel => ?_
  rw [hlevel]
  cases (quest.here c data names position).value with
  | nil =>
    rcases hlast with rfl | rfl
    · exact yields_pure rfl
    · cases climbs <;> exact yields_pure rfl
  | cons d rest => exact yields_pure rfl

/-! ## 4. Contexts without files, imports and namespace imports -/

/-- A context that is not a registered file and imports nothing. -/
structure Passable (g : Graph) (a : ContextId) : Prop where
  unregistered : g.isRegistered ⟨a⟩ = false
  imports : ∀ data ∈ g.context? a, data.imports = []

/-- A context that besides indexes no import of a namespace. -/
structure Secluded (g : Graph) (a : ContextId) : Prop extends g.Passable a where
  index : g.indexed a .globalImport = []

instance (g : Graph) (a : ContextId) : Decidable (g.Passable a) :=
  decidable_of_iff (g.isRegistered ⟨a⟩ = false ∧ ∀ data ∈ g.context? a, data.imports = [])
    ⟨fun h => ⟨h.1, h.2⟩, fun h => ⟨h.unregistered, h.imports⟩⟩

instance (g : Graph) (a : ContextId) : Decidable (g.Secluded a) :=
  decidable_of_iff (g.Passable a ∧ g.indexed a .globalImport = [])
    ⟨fun h => ⟨h.1, h.2⟩, fun h => ⟨h.toPassable, h.index⟩⟩

theorem Passable.plain (h : g.Passable a) {data : Context} (ha : g.context? a = some data)
    (haliased : (g.aliased a position quest.whole names).value = names) :
    g.Plain quest position a data names where
  unregistered := by
    have hunregistered := h.unregistered
    unfold isRegistered at hunregistered
    rw [ha] at hunregistered
    exact hunregistered
  imports := h.imports data ha
  aliased := haliased

/-- No context imports another. -/
def Importless (g : Graph) : Prop := ∀ c data, g.context? c = some data → data.imports = []

instance (g : Graph) : Decidable g.Importless :=
  decidable_of_iff (∀ e ∈ g.contexts.entries, e.2.imports = [])
    ⟨fun h c data hc => h (c, data) (Store.mem_entries_iff.mpr hc),
      fun h e he => h e.1 e.2 (Store.mem_entries_iff.mp he)⟩

/-- A context that is no namespace and has an answer to a name. -/
def Answers (g : Graph) (x : Ident) (position : Option Position) (filter : DeclFilter)
    (a : ContextId) : Prop :=
  ∃ data ∈ g.context? a, data.kind ≠ .nameSpace ∧ (g.findLocal a x position filter).value ≠ []

instance (g : Graph) (x : Ident) (position : Option Position) (filter : DeclFilter)
    (a : ContextId) : Decidable (g.Answers x position filter a) :=
  inferInstanceAs (Decidable (∃ data ∈ g.context? a, _))

theorem value_findLocal {data : Context} (ha : g.context? a = some data) (x : Ident)
    (position : Option Position) (filter : DeclFilter) :
    (g.findLocal a x position filter).value =
      (g.localMatches data x position filter).value.eraseDups := by
  unfold findLocal
  rw [ha]
  rfl

theorem value_findLocal_eq_nil {data : Context} (ha : g.context? a = some data) {x : Ident}
    {position : Option Position} {filter : DeclFilter} :
    (g.findLocal a x position filter).value = [] ↔
      (g.localMatches data x position filter).value = [] := by
  rw [value_findLocal ha]
  constructor
  · intro h
    refine List.eq_nil_iff_forall_not_mem.mpr fun d hd => ?_
    rw [← List.mem_eraseDups, h] at hd
    exact List.not_mem_nil hd
  · intro h
    rw [h]
    rfl

/-- A context that does not answer to the name is mute, and so is every context if the
    name has further segments. -/
theorem here_eq_nil {q : QualName} (hnames : NameTrie.Sole q names) {data : Context}
    (ha : g.context? a = some data) {filter : DeclFilter}
    (hno : (NameTrie.ofName q).hasNext = false →
      ¬ g.Answers (NameTrie.ofName q).segment position filter a) :
    ((g.declarationQuest filter).here a data names position).value = [] := by
  show (g.declarationsHere filter data names position).value = []
  rw [hnames.declarationsHere]
  split
  · rfl
  · next h =>
    rw [not_or, Bool.not_eq_true] at h
    refine (value_findLocal_eq_nil ha).mp ?_
    by_contra hsome
    exact hno h.2 ⟨data, ha, h.1, hsome⟩

/-- A context that indexes no import of a namespace leaves the names as they are. -/
theorem Secluded.aliased {x : Ident} (h : g.Secluded a)
    (hnames : NameTrie.Sole (.ofIdent x) names) (position : Option Position) :
    (g.aliased a position false names).value = names := by
  have hitem : ∀ t ∈ names, (g.aliasedItem a position false t).value = [t] := by
    intro t ht
    unfold aliasedItem
    cases hrooted : t.rooted with
    | true => rfl
    | false =>
      have hrename : mayRename false (NameTrie.ofName (.ofIdent x)) = false := Bool.and_false _
      rw [h.index, hnames.eq_of_free ht hrooted, hrename]
      rfl
  unfold Graph.aliased
  rw [Noted.value_gatherM, List.flatMap_congr hitem, List.flatMap_singleton']

/-- A search from a context that is there begins with the name alone. -/
theorem yields_findDeclarations_of_searchUp {Q : List DeclId → Prop} {name : QualName}
    {type : Option TypeId} {flags : SearchFlags} (hc : g.hasContext c = true)
    (hclimbs : flags.climbs = true)
    (h : Yields P (fun found => Q found.eraseDups)
      (g.searchUp (g.declarationQuest ⟨type, flags.onlyFunctions⟩) true position (g.lineage c)
        [.ofName name] [])) :
    Yields P Q (g.findDeclarations c name position type flags) := by
  unfold findDeclarations search
  rw [if_pos hc, hclimbs]
  exact h.bind fun found hfound => yields_pure hfound

/-- **A search that does not go up** finds what its context answers. -/
theorem yields_still {x : Ident} {type : Option TypeId} {flags : SearchFlags}
    (hclimbs : flags.climbs = false) {data : Context} (hdata : g.context? c = some data)
    (hplain : g.Plain (g.declarationQuest ⟨type, flags.onlyFunctions⟩) position c data
      [.ofName (.ofIdent x)]) :
    Yields P (· = if g.Answers x position ⟨type, flags.onlyFunctions⟩ c then
        (g.findLocal c x position ⟨type, flags.onlyFunctions⟩).value else [])
      (g.findDeclarations c (.ofIdent x) position type flags) := by
  have hc : g.hasContext c = true := Option.isSome_iff_exists.mpr ⟨data, hdata⟩
  have hsole : NameTrie.Sole (.ofIdent x) [.ofName (.ofIdent x)] := NameTrie.sole_ofName rfl
  obtain ⟨above, habove⟩ : ∃ above, g.lineage c = c :: above := ⟨_, rfl⟩
  unfold findDeclarations search
  rw [if_pos hc, hclimbs, habove]
  refine (yields_searchUp_last rfl hdata hplain (.inl rfl)).bind fun found hfound => yields_pure ?_
  rw [hfound]
  split
  · next ha =>
    obtain ⟨data', hdata', hkind, _⟩ := ha
    cases hdata.symm.trans hdata'
    have hhere := (hsole.declarationsHere g ⟨type, flags.onlyFunctions⟩ data position).trans
      (if_neg (not_or.mpr ⟨hkind, Bool.false_ne_true⟩))
    exact (congrArg List.eraseDups hhere).trans (value_findLocal hdata _ _ _).symm
  · next ha =>
    rw [here_eq_nil hsole hdata fun _ => ha]
    rfl

section Search

variable {q : QualName} {type : Option TypeId} {flags : SearchFlags} (ht : g.outline.Tree)
  (hclimbs : flags.climbs = true) (hc : g.hasContext c = true) (h : g.Ascends c below a)

include ht hclimbs hc h

/-- **A search for a name passes through contexts that are plain and do not answer.** -/
theorem yields_findDeclarations_through {Q : List DeclId → Prop} (hq : q.rooted = false)
    (hplain : ∀ b ∈ below, ∀ data names, g.context? b = some data → NameTrie.Sole q names →
      g.Plain (g.declarationQuest ⟨type, flags.onlyFunctions⟩) position b data names)
    (hmute : (NameTrie.ofName q).hasNext = false → ∀ b ∈ below,
      ¬ g.Answers (NameTrie.ofName q).segment position ⟨type, flags.onlyFunctions⟩ b)
    (hrest : Yields P (fun found => Q found.eraseDups)
      (g.searchUp (g.declarationQuest ⟨type, flags.onlyFunctions⟩) true position (g.lineage a)
        (below.foldl g.leaving [.ofName q]) [])) :
    Yields P Q (g.findDeclarations c q position type flags) := by
  refine yields_findDeclarations_of_searchUp hc hclimbs ?_
  refine yields_searchUp_ascends ht rfl (fun names data above hnames => hnames.upwards g data above)
    h (fun b hb data names hdata hnames => ⟨hplain b hb data names hdata hnames, ?_⟩)
    (NameTrie.sole_ofName hq) hrest
  exact here_eq_nil hnames hdata fun hleaf => hmute hleaf b hb

/-- **The first context that answers** ends the search for one name. -/
theorem yields_nearest {x : Ident}
    (hplain : ∀ b ∈ below ++ [a], ∀ data names, g.context? b = some data →
      NameTrie.Sole (.ofIdent x) names →
      g.Plain (g.declarationQuest ⟨type, flags.onlyFunctions⟩) position b data names)
    (hmute : ∀ b ∈ below, ¬ g.Answers x position ⟨type, flags.onlyFunctions⟩ b)
    (ha : g.Answers x position ⟨type, flags.onlyFunctions⟩ a) :
    Yields P (· = (g.findLocal a x position ⟨type, flags.onlyFunctions⟩).value)
      (g.findDeclarations c (.ofIdent x) position type flags) := by
  obtain ⟨data, hdata, hkind, hsome⟩ := ha
  have hsole : NameTrie.Sole (.ofIdent x) (below.foldl g.leaving [.ofName (.ofIdent x)]) :=
    sole_leaving (NameTrie.sole_ofName rfl) below
  refine yields_findDeclarations_through ht hclimbs hc h rfl
    (fun b hb => hplain b (List.mem_append_left _ hb)) (fun _ => hmute) ?_
  have hhere : ((g.declarationQuest ⟨type, flags.onlyFunctions⟩).here a data
      (below.foldl g.leaving [.ofName (.ofIdent x)]) position).value =
        (g.localMatches data x position ⟨type, flags.onlyFunctions⟩).value :=
    (hsole.declarationsHere g _ data position).trans
      (if_neg (not_or.mpr ⟨hkind, Bool.false_ne_true⟩))
  refine (yields_searchUp_answer ht rfl hdata
    (hplain a (List.mem_append_right _ (List.mem_singleton_self a)) data _ hdata hsole) ?_).mono
    fun found hfound => ?_
  · rw [hhere]
    exact fun hnil => hsome ((value_findLocal_eq_nil hdata).mpr hnil)
  · rw [hfound, hhere, value_findLocal hdata]

/-- **A search for one name that no context answers** finds nothing. -/
theorem yields_nowhere {x : Ident} (hroot : g.parent? a = none)
    (hplain : ∀ b ∈ below ++ [a], ∀ data names, g.context? b = some data →
      NameTrie.Sole (.ofIdent x) names →
      g.Plain (g.declarationQuest ⟨type, flags.onlyFunctions⟩) position b data names)
    (hmute : ∀ b ∈ below ++ [a], ¬ g.Answers x position ⟨type, flags.onlyFunctions⟩ b) :
    Yields P (· = []) (g.findDeclarations c (.ofIdent x) position type flags) := by
  have hsole : NameTrie.Sole (.ofIdent x) (below.foldl g.leaving [.ofName (.ofIdent x)]) :=
    sole_leaving (NameTrie.sole_ofName rfl) below
  have ha : a ∈ below ++ [a] := List.mem_append_right _ (List.mem_singleton_self a)
  refine yields_findDeclarations_through ht hclimbs hc h rfl
    (fun b hb => hplain b (List.mem_append_left _ hb))
    (fun _ b hb => hmute b (List.mem_append_left _ hb)) ?_
  rw [lineage_unfold ht, hroot]
  cases hdata : g.context? a with
  | none =>
    unfold searchUp
    refine (yields_searchLevel_stale hdata _ _ _ _ _).bind fun level hlevel => ?_
    rw [hlevel]
    exact yields_pure rfl
  | some data =>
    refine (yields_searchUp_last rfl hdata (hplain a ha data _ hdata hsole) (.inr rfl)).mono
      fun found hfound => ?_
    rw [hfound, here_eq_nil hsole hdata fun _ => hmute a ha]
    rfl

end Search

/-- A context below a file answers for all above it, the file included. -/
theorem Importless.yields_nearest (ht : g.outline.Tree) (himports : g.Importless)
    (haliases : g.Unaliased) {type : Option TypeId} {flags : SearchFlags}
    (hclimbs : flags.climbs = true) {n : ContextId} (hway : g.Ascends c below n)
    (hbelow : ∀ b ∈ below, g.isRegistered ⟨b⟩ = false) {low : List ContextId}
    (hlow : g.Ascends c low a) (ha : a ∈ below) {x : Ident}
    (hmute : ∀ b ∈ low, ¬ g.Answers x position ⟨type, flags.onlyFunctions⟩ b)
    (hanswers : g.Answers x position ⟨type, flags.onlyFunctions⟩ a) :
    Yields P (· = (g.findLocal a x position ⟨type, flags.onlyFunctions⟩).value)
      (g.findDeclarations c (.ofIdent x) position type flags) := by
  obtain ⟨low', high, rfl, hlow', _⟩ := hway.part ha
  obtain rfl := hlow.unique ht hlow'
  have hc : g.hasContext c = true := by
    refine Option.isSome_iff_exists.mpr ?_
    cases hlow with
    | here => exact hway.live c ha
    | up hp hup => exact hway.live c (List.mem_append_left _ List.mem_cons_self)
  refine Graph.yields_nearest ht hclimbs hc hlow (fun b hb data names hdata _ => ?_) hmute hanswers
  have hb : b ∈ low ++ high := by
    rcases List.mem_append.mp hb with hb | hb
    · exact List.mem_append_left _ hb
    · rwa [List.mem_singleton.mp hb]
  have hpassable : g.Passable b := ⟨hbelow b hb, himports b⟩
  exact hpassable.plain hdata (haliases.aliased b position _ names)

end Graph

/-! ## 5. After every sequence of calls -/

namespace Workspace

open ScopeGraph.Graph

/-- **The first context that answers hides all above it.** Where no context at or above
    the one that is asked is a registered file, imports anything or indexes the import of
    a namespace, a search for one name finds what the first one that is no namespace and
    has an answer finds by itself, and nothing if there is none. -/
theorem nearest_answers (limits : Limits) (calls : List Call)
    (hfrees : (empty limits).FewFrees calls) (c : ContextId)
    (hc : ((empty limits).run calls).graph.hasContext c = true)
    (hsecluded : ∀ below a, ((empty limits).run calls).graph.Ascends c below a →
      ((empty limits).run calls).graph.Secluded a)
    (x : Ident) (position : Option Position) (type : Option TypeId) (flags : SearchFlags)
    (hparents : flags.skipParents = false) (himported : flags.imported = false) :
    let w := (empty limits).run calls
    let filter : DeclFilter := ⟨type, flags.onlyFunctions⟩
    let found := (w.ask (·.findDeclarations c (.ofIdent x) position type flags)).1
    (∀ below a, w.graph.Ascends c below a →
        (∀ b ∈ below, ¬ w.graph.Answers x position filter b) → w.graph.Answers x position filter a →
        found = (w.ask fun g => g.findLocal a x position filter).1) ∧
      ((∀ below a, w.graph.Ascends c below a → ¬ w.graph.Answers x position filter a) →
        found = []) := by
  intro w filter found
  obtain ⟨_, hkept, _⟩ := kept_run hfrees
  have ht : w.graph.outline.Tree := hkept.kempt.consistent.tree
  have hclimbs : flags.climbs = true := SearchFlags.climbs_eq_true hparents himported
  have hplain : ∀ {below a}, w.graph.Ascends c below a → ∀ b ∈ below ++ [a], ∀ data names,
      w.graph.context? b = some data → NameTrie.Sole (.ofIdent x) names →
      w.graph.Plain (w.graph.declarationQuest filter) position b data names := by
    intro below a h b hb data names hdata hnames
    obtain ⟨low, hlow⟩ := h.ascends_of_mem hb
    exact (hsecluded low b hlow).plain hdata ((hsecluded low b hlow).aliased hnames position)
  constructor
  · intro below a h hbelow ha
    exact (yields_nearest (P := fun _ => True) ht hclimbs hc h (hplain h) hbelow ha _ trivial).1
  · intro hnone
    obtain ⟨below, a, h, hroot⟩ := exists_root ht c
    refine (yields_nowhere (P := fun _ => True) ht hclimbs hc h hroot (hplain h) (fun b hb => ?_)
      _ trivial).1
    obtain ⟨low, hlow⟩ := h.ascends_of_mem hb
    exact hnone low b hlow

/-- A file and in it a namespace `N`, in this a function, and in the function a block
    without a name. All but the block declare `x`, the function in its last line. Beside
    them is another block, of which only an anonymous part is left. -/
def nestedNames : List Call :=
  [.change (.createTop ⟨0⟩ (.lines 0 40)), .change (.declare ⟨0, 0⟩ "x" (.lines 1 2) .ordinary),
    .change (.createContext ⟨0, 0⟩ (.lines 3 30)), .change (.setKind ⟨1, 0⟩ .nameSpace),
    .change (.setScopeName ⟨1, 0⟩ { path := ["N"] }),
    .change (.declare ⟨1, 0⟩ "x" (.lines 4 5) .ordinary),
    .change (.createContext ⟨1, 0⟩ (.lines 6 25)), .change (.setKind ⟨2, 0⟩ .function),
    .change (.declare ⟨2, 0⟩ "x" (.lines 20 21) .ordinary),
    .change (.createAnonymous ⟨2, 0⟩ (.lines 8 15)),
    .change (.createContext ⟨0, 0⟩ (.lines 31 39)), .change (.createAnonymous ⟨4, 0⟩ (.lines 32 33)),
    .change (.deleteContext ⟨4, 0⟩)]

/-- In the tenth line the block finds the `x` of the file: that of the function comes
    later, and the namespace has no answer. From what is left of the other block nothing
    is found. -/
theorem nearest_answers_nested :
    let w := (empty {}).run nestedNames
    let find c := (w.ask (·.findDeclarations c (.ofIdent "x") (some ⟨10, 0⟩) none {})).1
    find ⟨3, 0⟩ = (w.ask fun g => g.findLocal ⟨0, 0⟩ "x" (some ⟨10, 0⟩) {}).1 ∧
      find ⟨3, 0⟩ = [⟨0, 0⟩] ∧ w.graph.hasContext ⟨5, 0⟩ = true ∧
      w.graph.parent? ⟨5, 0⟩ = some ⟨4, 0⟩ ∧ find ⟨5, 0⟩ = [] := by
  intro w find
  have hfrees : (empty {}).FewFrees nestedNames := fewFrees_of_length (by decide)
  obtain ⟨_, hkept, _⟩ := kept_run hfrees
  have ht : w.graph.outline.Tree := hkept.kempt.consistent.tree
  have hsecluded : ∀ c ∈ [⟨3, 0⟩, ⟨5, 0⟩], ∀ below a, w.graph.Ascends c below a → w.graph.Secluded a := by
    have hall : ∀ c ∈ [⟨3, 0⟩, ⟨5, 0⟩], ∀ a ∈ w.graph.lineage c, w.graph.Secluded a := by
      decide +kernel
    exact fun c hc below a h => hall c hc a (h.mem_lineage ht)
  have hway : w.graph.Ascends ⟨3, 0⟩ [⟨3, 0⟩, ⟨2, 0⟩, ⟨1, 0⟩] ⟨0, 0⟩ :=
    .up (by decide +kernel) (.up (by decide +kernel) (.up (by decide +kernel) (.here _)))
  have hnone : ∀ a ∈ w.graph.lineage ⟨5, 0⟩, ¬ w.graph.Answers "x" (some ⟨10, 0⟩) {} a := by
    decide +kernel
  have hfile := (nearest_answers {} nestedNames hfrees ⟨3, 0⟩ (by decide +kernel)
    (hsecluded _ (by decide)) "x" (some ⟨10, 0⟩) none {} rfl rfl).1 _ _ hway (by decide +kernel)
    (by decide +kernel)
  have hstale := (nearest_answers {} nestedNames hfrees ⟨5, 0⟩ (by decide +kernel)
    (hsecluded _ (by decide)) "x" (some ⟨10, 0⟩) none {} rfl rfl).2
    fun below a h => hnone a (h.mem_lineage ht)
  exact ⟨hfile, by decide +kernel, by decide +kernel, by decide +kernel, hstale⟩

end Workspace

end ScopeGraph
