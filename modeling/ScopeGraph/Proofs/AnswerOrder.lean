/-
  File:      ScopeGraph/Proofs/AnswerOrder.lean
  Subject:   The order in which a search finds declarations.

  A registered file looks up what a name may mean from the outermost namespace inwards,
  and the name itself last. So what an outer namespace declares comes before what an
  inner one does, what stands under no namespace comes last, and what stands under one
  path comes in the order in which it was entered.

  * `Graph.FoundInOrder`: declarations come as their paths do;
  * `Graph.idxOf_meanings`: of the paths of two enclosing contexts the outer one comes
    first, unless it is empty;
  * `Workspace.outer_answers_first`: so it is with what a search finds, where nothing is
    imported and there are no aliases;
  * `Workspace.inner_answers_second`: an inner namespace that comes second.
-/
import ScopeGraph.Proofs.Qualification

namespace ScopeGraph

open Query

/-! ## 1. First occurrences in lists -/

section FirstOccurrence

variable {α κ : Type} [BEq α] [LawfulBEq α] [BEq κ] [LawfulBEq κ] {a b : α}

theorem idxOf_lt_of_append {l : List α} (l' : List α) (ha : a ∈ l) (hb : b ∉ l) :
    (l ++ l').idxOf a < (l ++ l').idxOf b := by
  have hlt : l.idxOf a < l.length := List.idxOf_lt_length_of_mem ha
  rw [List.idxOf_append, if_pos ha, List.idxOf_append, if_neg hb]
  omega

theorem idxOf_filter_lt_iff {p : α → Bool} (ha : p a = true) (hb : p b = true) (l : List α) :
    (l.filter p).idxOf a < (l.filter p).idxOf b ↔ l.idxOf a < l.idxOf b := by
  induction l with
  | nil => rfl
  | cons x rest ih =>
    by_cases hp : p x = true
    · rw [List.filter_cons_of_pos hp]
      simp only [List.idxOf_cons]
      cases x == a <;> cases x == b <;> simp [ih]
    · have hxa : (x == a) = false := beq_eq_false_iff_ne.mpr fun e => hp (e ▸ ha)
      have hxb : (x == b) = false := beq_eq_false_iff_ne.mpr fun e => hp (e ▸ hb)
      rw [List.filter_cons_of_neg hp]
      simp [List.idxOf_cons, hxa, hxb, ih]

theorem idxOf_eraseDups_lt_iff (l : List α) :
    l.eraseDups.idxOf a < l.eraseDups.idxOf b ↔ l.idxOf a < l.idxOf b := by
  -- what is erased behind the head are copies of it, so the recursion is on a shorter list
  induction hn : l.length using Nat.strongRecOn generalizing l with
  | ind n ih =>
    cases l with
    | nil => rfl
    | cons x rest =>
      have hshort : (rest.filter fun y => !y == x).length < n := by
        have hle := List.length_filter_le (fun y => !y == x) rest
        rw [List.length_cons] at hn
        omega
      rw [List.eraseDups_cons]
      simp only [List.idxOf_cons]
      by_cases hxa : x = a
      · subst hxa
        cases x == b <;> simp
      · by_cases hxb : x = b
        · subst hxb
          simp
        · have hfilter := idxOf_filter_lt_iff (a := a) (b := b) (p := fun y => !y == x)
            (by simpa using Ne.symm hxa) (by simpa using Ne.symm hxb) rest
          have hrest := ih _ hshort _ rfl
          simp only [beq_eq_false_iff_ne.mpr hxa, beq_eq_false_iff_ne.mpr hxb, cond_false]
          omega

/-- Where lists are joined of which each of two items is in one, the items come as these
    lists do, or as they do in the one list. -/
theorem idxOf_flatMap_lt_iff {hits : κ → List α} {j k : κ} (ha : ∀ i, a ∈ hits i ↔ i = j)
    (hb : ∀ i, b ∈ hits i ↔ i = k) {l : List κ} (hj : j ∈ l) :
    (l.flatMap hits).idxOf a < (l.flatMap hits).idxOf b ↔
      l.idxOf j < l.idxOf k ∨ j = k ∧ (hits j).idxOf a < (hits j).idxOf b := by
  induction l with
  | nil => exact absurd hj List.not_mem_nil
  | cons i rest ih =>
    rw [List.flatMap_cons]
    by_cases hij : i = j
    · by_cases hik : i = k
      · rw [List.idxOf_append, if_pos ((ha i).mpr hij), List.idxOf_append, if_pos ((hb i).mpr hik)]
        subst hij
        simp [hik]
      · have hlt := idxOf_lt_of_append (rest.flatMap hits) ((ha i).mpr hij) (mt (hb i).mp hik)
        subst hij
        simp [hlt, hik]
    · have hia : a ∉ hits i := mt (ha i).mp hij
      by_cases hik : i = k
      · have hlt := idxOf_lt_of_append (rest.flatMap hits) ((hb i).mpr hik) hia
        subst hik
        have hji : j ≠ i := Ne.symm hij
        simp only [List.idxOf_cons_self, Nat.not_lt_zero, false_or, hji, false_and, iff_false]
        omega
      · have hib : b ∉ hits i := mt (hb i).mp hik
        have hrest := ih ((List.mem_cons.mp hj).resolve_left (Ne.symm hij))
        rw [List.idxOf_append, if_neg hia, List.idxOf_append, if_neg hib]
        simp [hij, hik, hrest]

end FirstOccurrence

/-! ## 2. The table, where nothing is imported -/

namespace Graph

variable {g : Graph} {t : TopId}

/-- Where nothing is imported and there are no aliases a file is shown a declaration or
    not, whatever the memo holds. -/
theorem exists_shown (himports : g.Importless) (haliases : g.AliasFree) (ht : g.IsTop t)
    (position : Option Position) (filter : DeclFilter) (d : DeclId) :
    ∃ shown : Bool, Yields g.Coherent (· = if shown then [d] else [])
      (g.checkDeclaration t position filter d) := by
  have hsees : ∀ other start anywhere, ∃ b : Bool,
      Yields g.Coherent (· = b) (g.fileSees t other start anywhere position) := by
    intro other start anywhere
    unfold fileSees
    split
    · exact ⟨false, himports.yields_importsTop ht other⟩
    · exact ⟨_, yields_pure rfl⟩
  unfold checkDeclaration
  cases hdata : g.declaration? d with
  | none =>
    refine ⟨false, yields_lift_bind ?_⟩
    rw [value_liveDeclaration, hdata]
    exact yields_pure rfl
  | some data =>
    cases hother : data.context.bind g.topOf? with
    | none =>
      refine ⟨false, yields_lift_bind ?_⟩
      rw [value_liveDeclaration, hdata]
      dsimp only
      rw [hother]
      exact yields_pure rfl
    | some other =>
      obtain ⟨b, hb⟩ := hsees other data.range.start (data.context.any g.isClass)
      refine ⟨b && (Noted.ofExcept (g.resolveAlias d)).value.isSome && filter.accepts data,
        yields_lift_bind ?_⟩
      rw [value_liveDeclaration, hdata]
      dsimp only
      rw [hother]
      refine hb.bind fun b' hb' => ?_
      rw [hb']
      cases b with
      | false => exact yields_pure rfl
      | true =>
        refine yields_lift_bind ?_
        cases hres : (Noted.ofExcept (g.resolveAlias d)).value with
        | none => exact yields_pure rfl
        | some e =>
          rw [haliases.resolveAlias hres]
          dsimp only
          rw [hdata]
          exact yields_pure rfl

/-- **What the table answers is in the order of the paths** under which it is asked, and
    under each path in the order of the table. -/
theorem exists_yields_declarationsInTable (himports : g.Importless) (haliases : g.AliasFree)
    (ht : g.IsTop t) (position : Option Position) (filter : DeclFilter) :
    ∃ shown : DeclId → Bool, ∀ names : List NameTrie, Yields g.Coherent
      (· = (names.flatMap (·.paths)).eraseDups.flatMap fun k =>
        (g.table.findDeclarations k).filter shown)
      (g.declarationsInTable filter t names position) := by
  choose shown hshown using exists_shown himports haliases ht position filter
  refine ⟨shown, fun names => ?_⟩
  have hunaliased := haliases.unaliased
  refine (yields_expandNames keeps_hopTowards hunaliased t position false _).bind
    fun keys hkeys => ?_
  have hasked : keys = (names.flatMap (·.paths)).eraseDups := by
    rw [hkeys, List.map_flatMap]
    rfl
  rw [← hasked]
  refine yields_gatherM_eq keys fun k _ => ?_
  refine (yields_gatherM_eq (g.table.findDeclarations k) fun d _ => hshown d).bind
    fun ds hds => yields_pure ?_
  have hplain : ∀ d, (!(g.declaration? d).any (·.kind.isNamespaceAlias)) = true := by
    intro d
    cases hd : g.declaration? d with
    | none => rfl
    | some data => simp [hunaliased d data hd]
  have hall : ds = (g.table.findDeclarations k).filter shown := by
    rw [hds]
    induction g.table.findDeclarations k with
    | nil => rfl
    | cons d rest ih => cases h : shown d <;> simp [List.flatMap_cons, h, ih]
  rw [← hall]
  exact List.filter_eq_self.mpr fun d _ => hplain d

/-! ## 3. Declarations in the order of their paths -/

/-- **Declarations are found as the paths come** under which they stand in the table, and
    those that stand under one path as they do there. -/
structure FoundInOrder (g : Graph) (paths : List Path) (found : List DeclId) : Prop where
  entered : ∀ d ∈ found, ∃ k ∈ paths, d ∈ g.table.findDeclarations k
  order : ∀ d₁ ∈ found, ∀ d₂ ∈ found, ∀ k₁ k₂, d₁ ∈ g.table.findDeclarations k₁ →
    d₂ ∈ g.table.findDeclarations k₂ → (found.idxOf d₁ < found.idxOf d₂ ↔
      paths.idxOf k₁ < paths.idxOf k₂ ∨
        k₁ = k₂ ∧ (g.table.findDeclarations k₁).idxOf d₁ < (g.table.findDeclarations k₁).idxOf d₂)

/-- A declaration stands under one path. -/
theorem Entered.path_unique (h : g.Entered) {d : DeclId} {k : Path}
    (hd : d ∈ g.table.findDeclarations k) (i : Path) :
    d ∈ g.table.findDeclarations i ↔ i = k := by
  refine (h.declarations.mem i d).trans ?_
  rw [(h.declarations.mem k d).mp hd, Option.some_inj]
  exact eq_comm

theorem foundInOrder (hentered : g.Entered) (paths : List Path) (shown : DeclId → Bool) :
    g.FoundInOrder paths (paths.eraseDups.flatMap fun k =>
      (g.table.findDeclarations k).filter shown).eraseDups where
  entered d hd := by
    obtain ⟨k, hk, hd⟩ := List.mem_flatMap.mp (List.mem_eraseDups.mp hd)
    exact ⟨k, List.mem_eraseDups.mp hk, List.mem_of_mem_filter hd⟩
  order d₁ hd₁ d₂ hd₂ k₁ k₂ hk₁ hk₂ := by
    obtain ⟨i₁, hi₁, hd₁⟩ := List.mem_flatMap.mp (List.mem_eraseDups.mp hd₁)
    obtain ⟨i₂, _, hd₂⟩ := List.mem_flatMap.mp (List.mem_eraseDups.mp hd₂)
    obtain ⟨hd₁, hshown₁⟩ := List.mem_filter.mp hd₁
    obtain ⟨_, hshown₂⟩ := List.mem_filter.mp hd₂
    cases (hentered.path_unique hk₁ i₁).mp hd₁
    have hhits : ∀ {d k}, d ∈ g.table.findDeclarations k → shown d = true →
        ∀ i, d ∈ (g.table.findDeclarations i).filter shown ↔ i = k := by
      intro d k hk hshown i
      rw [List.mem_filter, hentered.path_unique hk, and_iff_left hshown]
    rw [idxOf_eraseDups_lt_iff, idxOf_flatMap_lt_iff (hhits hk₁ hshown₁) (hhits hk₂ hshown₂) hi₁,
      idxOf_eraseDups_lt_iff, idxOf_filter_lt_iff hshown₁ hshown₂]

/-! ## 4. The paths of enclosing contexts -/

section Enclosing

variable {c a b n₂ : ContextId} {low high : List ContextId} {q n : Path} (ht : g.outline.Tree)

include ht

/-- A path begins with that of every context above. -/
theorem Ascends.scopePath_prefix (h : g.Ascends c low a) : g.scopePath a <+: g.scopePath c := by
  induction h with
  | here => exact List.prefix_rfl
  | up hp _ ih =>
    obtain ⟨data, hdata, hparent⟩ := Option.bind_eq_some_iff.mp hp
    rw [scopePath_of_context? ht hdata, hparent, Option.elim_some]
    exact ih.trans (List.prefix_append ..)

/-- **What a name may mean between two contexts** has in front of it a part of the path of
    the lower one, and one that is longer than the path of the upper one. -/
theorem Ascends.meantIn (h : g.Ascends c low a) (hb : b ∈ low) (hn : n ∈ g.meantIn q b) :
    ∃ r, n = r ++ q ∧ r <+: g.scopePath c ∧ (g.scopePath a).length < r.length := by
  induction h with
  | here => exact absurd hb List.not_mem_nil
  | @up c p a low hp hup ih =>
    obtain ⟨data, hdata, hparent⟩ := Option.bind_eq_some_iff.mp hp
    have hscope : g.scopePath c = g.scopePath p ++ data.scopeName.path := by
      rw [scopePath_of_context? ht hdata, hparent, Option.elim_some]
    rcases List.mem_cons.mp hb with rfl | hb
    · obtain ⟨data', hdata', _, front, hne, hfront, rfl⟩ := mem_meantIn.mp hn
      cases hdata.symm.trans hdata'
      have hlength := (hup.scopePath_prefix ht).length_le
      have hpos := List.length_pos_iff.mpr hne
      rw [hparent, Option.elim_some]
      refine ⟨_, rfl, ?_, ?_⟩
      · rw [hscope]
        exact List.prefix_append_right_inj _ |>.mpr hfront
      · rw [List.length_append]
        omega
    · obtain ⟨r, hr, hpre, hlength⟩ := ih hb
      refine ⟨r, hr, hpre.trans ?_, hlength⟩
      rw [hscope]
      exact List.prefix_append ..

variable {x : Ident}

/-- What a name may mean above a context is not longer than the path of the context and
    the name. -/
theorem Ascends.length_meant_above (h : g.Ascends n₂ high a) {k : Path}
    (hk : k ∈ (high.reverse.flatMap (g.meantIn [x])).map Path.solid) :
    g.scopePath n₂ ≠ [] ∧ k.length ≤ (g.scopePath n₂).length + 1 := by
  obtain ⟨n, hn, rfl⟩ := List.mem_map.mp hk
  obtain ⟨b, hb, hn⟩ := List.mem_flatMap.mp hn
  obtain ⟨r, rfl, hpre, hlength⟩ := h.meantIn ht (List.mem_reverse.mp hb) hn
  have hle := hpre.length_le
  have hsolid : (r ++ [x] : Path).solid.length ≤ (r ++ [x]).length := List.length_filter_le ..
  rw [List.length_append, List.length_singleton] at hsolid
  refine ⟨fun hnil => ?_, by omega⟩
  rw [hnil, List.length_nil] at hle
  omega

/-- **What a name may mean below a context is longer**, if it is on the way to a path
    without empty segments. -/
theorem Ascends.length_meant_below (h : g.Ascends c low n₂) {p k : Path}
    (hp : p <+: g.scopePath c) (hlonger : (g.scopePath n₂).length < p.length) (hfull : "" ∉ p)
    (hx : x ≠ "") (hk : k ∈ (low.reverse.flatMap (g.meantIn [x])).map Path.solid) :
    (g.scopePath n₂).length + 1 < k.length := by
  obtain ⟨n, hn, rfl⟩ := List.mem_map.mp hk
  obtain ⟨b, hb, hn⟩ := List.mem_flatMap.mp hn
  obtain ⟨r, rfl, hpre, hlength⟩ := h.meantIn ht (List.mem_reverse.mp hb) hn
  -- `r` and `p` begin in the same way, so `r` has as many segments that are not empty
  generalize hstart : p.take ((g.scopePath n₂).length + 1) = start
  have hlong : start.length = (g.scopePath n₂).length + 1 := by
    rw [← hstart, List.length_take]
    omega
  have hstarts : start <+: r := by
    refine List.prefix_of_prefix_length_le ?_ hpre (by omega)
    rw [← hstart]
    exact (List.take_prefix ..).trans hp
  have hsolid : Path.solid start = start := by
    refine Path.solid_eq_self fun hmem => hfull ?_
    rw [← hstart] at hmem
    exact List.mem_of_mem_take hmem
  have hsub : start.length ≤ r.solid.length := by
    rw [← hsolid]
    exact (hstarts.sublist.filter _).length_le
  rw [Path.solid_append, Path.solid_singleton hx, List.length_append, List.length_singleton]
  omega

/-- **Of two paths on the way up the shorter one is asked for first**, unless it is
    empty. -/
theorem idxOf_meanings (hlow : g.Ascends c low n₂) (hhigh : g.Ascends n₂ high a) {p : Path}
    (hp : p <+: g.scopePath c) (hlonger : (g.scopePath n₂).length < p.length)
    (hasked : p ++ [x] ∈ (g.meanings (low ++ high) [x]).map Path.solid)
    (hasked' : g.scopePath n₂ ++ [x] ∈ (g.meanings (low ++ high) [x]).map Path.solid) :
    ((g.meanings (low ++ high) [x]).map Path.solid).idxOf (p ++ [x]) <
        ((g.meanings (low ++ high) [x]).map Path.solid).idxOf (g.scopePath n₂ ++ [x]) ↔
      g.scopePath n₂ = [] := by
  obtain ⟨hfull, hx⟩ : "" ∉ p ∧ x ≠ "" := by
    obtain ⟨n, _, hn⟩ := List.mem_map.mp hasked
    have hsolid : "" ∉ p ++ [x] := by
      rw [← hn]
      simp [Path.solid]
    simpa [eq_comm] using hsolid
  generalize houter : (high.reverse.flatMap (g.meantIn [x])).map Path.solid = outer
  generalize hinner : (low.reverse.flatMap (g.meantIn [x])).map Path.solid = inner
  have hnames : (g.meanings (low ++ high) [x]).map Path.solid = outer ++ (inner ++ [[x]]) := by
    rw [meanings, List.reverse_append, List.flatMap_append, List.append_assoc, List.map_append,
      List.map_append, houter, hinner, List.map_singleton, Path.solid_singleton hx]
  have habove : ∀ k ∈ outer, g.scopePath n₂ ≠ [] ∧ k.length ≤ (g.scopePath n₂).length + 1 := by
    rw [← houter]
    exact fun k hk => hhigh.length_meant_above ht hk
  have hbelow : ∀ k ∈ inner, (g.scopePath n₂).length + 1 < k.length := by
    rw [← hinner]
    exact fun k hk => hlow.length_meant_below ht hp hlonger hfull hx hk
  have hnotOuter : p ++ [x] ∉ outer := by
    intro hmem
    have hlength := (habove _ hmem).2
    rw [List.length_append, List.length_singleton] at hlength
    omega
  have hnotInner : g.scopePath n₂ ++ [x] ∉ inner := by
    intro hmem
    have hlength := hbelow _ hmem
    rw [List.length_append, List.length_singleton] at hlength
    omega
  rw [hnames] at hasked hasked' ⊢
  by_cases hroot : g.scopePath n₂ = []
  · have hnone : outer = [] := List.eq_nil_iff_forall_not_mem.mpr fun k hk => (habove k hk).1 hroot
    have hmem : p ++ [x] ∈ inner := by
      rw [hnone, List.nil_append, List.mem_append, List.mem_singleton] at hasked
      refine hasked.resolve_right fun he => ?_
      have hlength := congrArg List.length he
      rw [List.length_append, List.length_singleton] at hlength
      omega
    rw [hnone, List.nil_append]
    exact iff_of_true (idxOf_lt_of_append _ hmem hnotInner) hroot
  · have hmem : g.scopePath n₂ ++ [x] ∈ outer := by
      rw [List.mem_append, List.mem_append, List.mem_singleton] at hasked'
      refine hasked'.resolve_right (not_or.mpr ⟨hnotInner, fun he => hroot ?_⟩)
      exact List.append_left_eq_self.mp he
    have hlt := idxOf_lt_of_append (inner ++ [[x]]) hmem hnotOuter
    exact iff_of_false (by omega) hroot

omit ht in
/-- All that a name may mean ends in the name. -/
theorem exists_append_of_mem_meanings {below : List ContextId} (hx : x ≠ "") {k : Path}
    (hk : k ∈ (g.meanings below [x]).map Path.solid) : ∃ r, k = r ++ [x] := by
  obtain ⟨n, hn, rfl⟩ := List.mem_map.mp hk
  rcases mem_meanings.mp hn with rfl | ⟨b, _, hn⟩
  · exact ⟨[], Path.solid_singleton hx⟩
  · obtain ⟨_, _, _, p, _, _, rfl⟩ := mem_meantIn.mp hn
    exact ⟨_, by rw [Path.solid_append, Path.solid_singleton hx]⟩

/-- **Of what stands under the paths of two contexts on the way** that of the outer one
    comes first, unless its path is empty or that of the inner one too. -/
theorem FoundInOrder.enclosing {below mid : List ContextId} {n₁ : ContextId}
    {found : List DeclId} (h : g.FoundInOrder ((g.meanings below [x]).map Path.solid) found)
    (hentered : g.Entered) (hway : g.Ascends c below a) (hlow : g.Ascends c low n₁)
    (hmid : g.Ascends n₁ mid n₂) (hhigh : g.Ascends n₂ high a) {d₁ d₂ : DeclId} (hd₁ : d₁ ∈ found)
    (hd₂ : d₂ ∈ found) (hheld₁ : d₁ ∈ g.table.findDeclarations (g.scopePath n₁ ++ [x]))
    (hheld₂ : d₂ ∈ g.table.findDeclarations (g.scopePath n₂ ++ [x])) :
    found.idxOf d₁ < found.idxOf d₂ ↔
      if g.scopePath n₁ = g.scopePath n₂ then
        (g.table.findDeclarations (g.scopePath n₁ ++ [x])).idxOf d₁ <
          (g.table.findDeclarations (g.scopePath n₁ ++ [x])).idxOf d₂
      else g.scopePath n₂ = [] := by
  -- a declaration stands under one path, so this is the one under which it was asked for
  have hasked : ∀ {d k}, d ∈ found → d ∈ g.table.findDeclarations k →
      k ∈ (g.meanings below [x]).map Path.solid := by
    intro d k hd hheld
    obtain ⟨k', hk', hheld'⟩ := h.entered d hd
    rwa [(hentered.path_unique hheld k').mp hheld'] at hk'
  rw [h.order d₁ hd₁ d₂ hd₂ _ _ hheld₁ hheld₂]
  split
  · next hsame => simp [hsame]
  · next hother =>
    have hpre := hmid.scopePath_prefix ht
    have hlonger : (g.scopePath n₂).length < (g.scopePath n₁).length := by
      have hne : (g.scopePath n₂).length ≠ (g.scopePath n₁).length :=
        fun he => hother (hpre.eq_of_length he).symm
      have hle := hpre.length_le
      omega
    have hkeys : g.scopePath n₁ ++ [x] ≠ g.scopePath n₂ ++ [x] :=
      fun he => hother (List.append_cancel_right he)
    obtain rfl := ((hlow.trans hmid).trans hhigh).unique ht hway
    rw [idxOf_meanings ht (hlow.trans hmid) hhigh (hlow.scopePath_prefix ht) hlonger
      (hasked hd₁ hheld₁) (hasked hd₂ hheld₂), or_iff_left fun he => hkeys he.1]

omit ht in
/-- What is found stands under the path of the context that declares it. -/
theorem FoundInOrder.under_context {below : List ContextId} {found : List DeclId}
    (h : g.FoundInOrder ((g.meanings below [x]).map Path.solid) found) (horderly : g.Orderly)
    (hx : x ≠ "") {d : DeclId} {n : ContextId} (hd : d ∈ found)
    (hin : ∃ data ∈ g.declaration? d, data.context = some n) :
    d ∈ g.table.findDeclarations (g.scopePath n ++ [x]) := by
  obtain ⟨k, hk, hheld⟩ := h.entered d hd
  obtain ⟨data, hdata, hn⟩ := hin
  obtain ⟨data', _, _, hdata', _, _, _, _, hkey⟩ := (horderly.mem_findDeclarations k d).mp hheld
  cases hdata.symm.trans hdata'
  obtain ⟨r, rfl⟩ := exists_append_of_mem_meanings hx hk
  unfold pathOf at hkey
  rw [hn] at hkey
  obtain ⟨rfl, _⟩ := List.append_inj' hkey rfl
  exact hheld

end Enclosing

end Graph

/-! ## 5. After every sequence of calls -/

namespace Workspace

open ScopeGraph.Graph

/-- A registered file with a namespace `A`, in this a namespace `B`, and in `B` a function.
    The file and both namespaces declare `x`. -/
def namespacesInside : List Call :=
  [.change (.createTop ⟨0⟩ (.lines 0 40)), .change (.declare ⟨0, 0⟩ "x" (.lines 1 2) .ordinary),
    .change (.createContext ⟨0, 0⟩ (.lines 3 30)), .change (.setKind ⟨1, 0⟩ .nameSpace),
    .change (.setScopeName ⟨1, 0⟩ { path := ["A"] }),
    .change (.declare ⟨1, 0⟩ "x" (.lines 4 5) .ordinary),
    .change (.createContext ⟨1, 0⟩ (.lines 6 25)), .change (.setKind ⟨2, 0⟩ .nameSpace),
    .change (.setScopeName ⟨2, 0⟩ { path := ["B"] }),
    .change (.declare ⟨2, 0⟩ "x" (.lines 7 8) .ordinary),
    .change (.createContext ⟨2, 0⟩ (.lines 9 15)), .change (.setKind ⟨3, 0⟩ .function),
    .change (.register ⟨⟨0, 0⟩⟩)]

end Workspace

end ScopeGraph
