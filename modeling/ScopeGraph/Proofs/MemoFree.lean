/-
  File:      ScopeGraph/Proofs/MemoFree.lean
  Subject:   Questions whose answers do not hang on the memo.

  Two questions are compared that may ask in another order, and so meet other
  memos on the way. `Query.Alike P R q q'`: from any two memos that satisfy `P` the
  answers are related by `R`, and the memos that are left satisfy `P` again. A
  question that is alike with itself has one answer, whatever the memo holds.

  * `Query.Congruence`: a relation of lists that all steps of a search respect. To
    have the same members is one, to be equal another;
  * `Graph.TablesAlike`: the tables of two graphs answer a file alike under every
    path, from some positions at which the aliases found lead to such positions again.
    Then the expansion of names is alike too (`TablesAlike.expandRounds`);
  * `Graph.alike_declarationsUnder`: what the symbol table answers to a file is a
    matter of which names are asked for, and of nothing else.
-/
import ScopeGraph.Proofs.TableSearch

namespace ScopeGraph

/-! ## 1. Lists with the same members -/

/-- Two lists have the same members, in whatever order and number. -/
def SameMembers {α : Type} (l l' : List α) : Prop := ∀ a, a ∈ l ↔ a ∈ l'

namespace SameMembers

variable {α β : Type} {l l' k k' : List α}

theorem refl (l : List α) : SameMembers l l := fun _ => Iff.rfl

theorem append (h : SameMembers l l') (hk : SameMembers k k') : SameMembers (l ++ k) (l' ++ k') :=
  fun a => by rw [List.mem_append, List.mem_append, h a, hk a]

theorem filter (h : SameMembers l l') (p : α → Bool) : SameMembers (l.filter p) (l'.filter p) :=
  fun a => by rw [List.mem_filter, List.mem_filter, h a]

theorem filterMap (h : SameMembers l l') (f : α → Option β) :
    SameMembers (l.filterMap f) (l'.filterMap f) :=
  fun b => by simp only [List.mem_filterMap, h _]

theorem eraseDups [BEq α] [LawfulBEq α] (h : SameMembers l l') :
    SameMembers l.eraseDups l'.eraseDups :=
  fun a => by rw [List.mem_eraseDups, List.mem_eraseDups, h a]

theorem isEmpty (h : SameMembers l l') : l.isEmpty = l'.isEmpty := by
  rw [Bool.eq_iff_iff, List.isEmpty_iff, List.isEmpty_iff, List.eq_nil_iff_forall_not_mem,
    List.eq_nil_iff_forall_not_mem]
  exact forall_congr' fun a => not_congr (h a)

theorem all (h : SameMembers l l') (p : α → Bool) : l.all p = l'.all p := by
  rw [Bool.eq_iff_iff, List.all_eq_true, List.all_eq_true]
  exact forall_congr' fun a => imp_congr_left (h a)

end SameMembers

/-! ## 2. Alike questions -/

namespace Query

variable {α α' β β' : Type} {P : HopMemo → Prop} {R : α → α' → Prop} {S : β → β' → Prop}

/-- From any two memos with `P` the questions lead to memos with `P`, and their
    answers are related. -/
def Alike (P : HopMemo → Prop) (R : α → α' → Prop) (q : Query α) (q' : Query α') : Prop :=
  ∀ m m', P m → P m' →
    R (q.answer m) (q'.answer m') ∧ P (q.memoAfter m) ∧ P (q'.memoAfter m')

theorem alike_pure {a : α} {a' : α'} (h : R a a') : Alike P R (pure a) (pure a') :=
  fun _ _ hm hm' => ⟨h, hm, hm'⟩

theorem alike_of_yields {Q : α → Prop} {Q' : α' → Prop} {q : Query α} {q' : Query α'}
    (hq : Yields P Q q) (hq' : Yields P Q' q') (h : ∀ a a', Q a → Q' a' → R a a') :
    Alike P R q q' :=
  fun m m' hm hm' => ⟨h _ _ (hq m hm).1 (hq' m' hm').1, (hq m hm).2, (hq' m' hm').2⟩

theorem Alike.keeps_left {q : Query α} {q' : Query α'} (h : Alike P R q q') : Keeps P q :=
  fun m hm => ⟨trivial, (h m m hm hm).2.1⟩

theorem Alike.keeps_right {q : Query α} {q' : Query α'} (h : Alike P R q q') : Keeps P q' :=
  fun m hm => ⟨trivial, (h m m hm hm).2.2⟩

theorem Alike.mono {R' : α → α' → Prop} {q : Query α} {q' : Query α'} (h : Alike P R q q')
    (hR : ∀ a a', R a a' → R' a a') : Alike P R' q q' :=
  fun m m' hm hm' => ⟨hR _ _ (h m m' hm hm').1, (h m m' hm hm').2⟩

/-- What one of the questions is answered may be added to what is known. -/
theorem Alike.withYields {Q : α → Prop} {q : Query α} {q' : Query α'} (h : Alike P R q q')
    (hq : Yields P Q q) : Alike P (fun a a' => R a a' ∧ Q a) q q' :=
  fun m m' hm hm' => ⟨⟨(h m m' hm hm').1, (hq m hm).1⟩, (h m m' hm hm').2⟩

theorem Alike.bind {q : Query α} {q' : Query α'} {f : α → Query β} {f' : α' → Query β'}
    (hq : Alike P R q q') (hf : ∀ a a', R a a' → Alike P S (f a) (f' a')) :
    Alike P S (q >>= f) (q' >>= f') := by
  intro m m' hm hm'
  obtain ⟨ha, hleft, hright⟩ := hq m m' hm hm'
  exact hf _ _ ha _ _ hleft hright

/-- Questions that part in the same way. -/
theorem alike_ite {b b' : Bool} (hb : b = b') {q k : Query α} {q' k' : Query α'}
    (hq : Alike P R q q') (hk : Alike P R k k') :
    Alike P R (if b then q else k) (if b' then q' else k') := by
  subst hb
  cases b with
  | true => exact hq
  | false => exact hk

/-- Before one of the questions an answer may stand that needs no memo. -/
theorem alike_lift_bind {x : Noted α} {f : α → Query β} {q' : Query β'}
    (h : Alike P S (f x.value) q') : Alike P S (liftM x >>= f) q' :=
  fun m m' hm hm' => h m m' hm hm'

/-- Both questions may have such an answer before them. -/
theorem alike_lift_bind_both {x : Noted α} {x' : Noted α'} {f : α → Query β} {f' : α' → Query β'}
    (h : Alike P S (f x.value) (f' x'.value)) : Alike P S (liftM x >>= f) (liftM x' >>= f') :=
  fun m m' hm hm' => h m m' hm hm'

/-- Warnings make no difference. -/
theorem alike_warn_bind (x : Warning) {q : Query β} {q' : Query β'} (h : Alike P S q q') :
    Alike P S (warn x >>= fun _ => q) q' :=
  fun m m' hm hm' => h m m' hm hm'

/-- Both questions may have a warning before them. -/
theorem alike_warn_bind_both (x : Warning) {q : Query β} {q' : Query β'} (h : Alike P S q q') :
    Alike P S (warn x >>= fun _ => q) (warn x >>= fun _ => q') :=
  fun m m' hm hm' => h m m' hm hm'

theorem alike_foldlM {γ : Type} {f : α → γ → Query α} {f' : α' → γ → Query α'}
    (hf : ∀ a a' c, R a a' → Alike P R (f a c) (f' a' c)) (cs : List γ) {a : α} {a' : α'}
    (h : R a a') : Alike P R (cs.foldlM f a) (cs.foldlM f' a') := by
  induction cs generalizing a a' with
  | nil => exact alike_pure h
  | cons c rest ih =>
    rw [List.foldlM_cons, List.foldlM_cons]
    exact (hf a a' c h).bind fun b b' hb => ih hb

/-- A walk that never gets further is like no walk. -/
theorem alike_pure_foldlM {γ : Type} {f' : α' → γ → Query α'}
    (hf : ∀ a a' c, R a a' → Alike P R (pure a) (f' a' c)) (cs : List γ) {a : α} {a' : α'}
    (h : R a a') : Alike P R (pure a) (cs.foldlM f' a') := by
  induction cs generalizing a a' with
  | nil => exact alike_pure h
  | cons c rest ih =>
    rw [List.foldlM_cons, ← bind_pure (pure a)]
    exact (hf a a' c h).bind fun b b' hb => ih hb

/-- What is in an answer of the one question is what is in an answer of the other
    for some memo. -/
theorem Alike.yields_left {q q' : Query (List β)} (h : Alike P SameMembers q q') :
    Yields P (fun bs => ∀ b, b ∈ bs ↔ ∃ m, P m ∧ b ∈ q'.answer m) q := by
  refine fun m hm => ⟨fun b => ?_, (h m m hm hm).2.1⟩
  constructor
  · exact fun hb => ⟨m, hm, ((h m m hm hm).1 b).mp hb⟩
  · rintro ⟨m', hm', hb⟩
    exact ((h m m' hm hm').1 b).mpr hb

theorem Alike.yields_right {q q' : Query (List β)} (h : Alike P SameMembers q q') :
    Yields P (fun bs => ∀ b, b ∈ bs ↔ ∃ m, P m ∧ b ∈ q'.answer m) q' := by
  refine fun m hm => ⟨fun b => ?_, (h m m hm hm).2.2⟩
  constructor
  · exact fun hb => ⟨m, hm, hb⟩
  · rintro ⟨m', hm', hb⟩
    exact ((h m m hm hm).1 b).mp (((h m m' hm hm').1 b).mpr hb)

/-- **Lists with the same members have joined answers with the same members**, if
    each item's questions are alike. -/
theorem Alike.gatherM {f f' : α → Query (List β)} {as as' : List α}
    (hf : ∀ a ∈ as, Alike P SameMembers (f a) (f' a)) (h : SameMembers as as') :
    Alike P SameMembers (gatherM f as) (gatherM f' as') := by
  refine alike_of_yields (yields_gatherM as fun a ha => (hf a ha).yields_left)
    (yields_gatherM as' fun a ha => (hf a ((h a).mpr ha)).yields_right) fun bs bs' hbs hbs' b => ?_
  rw [hbs, hbs']
  exact exists_congr fun a => and_congr_left fun _ => h a

/-- **A relation of lists that all steps of a search respect.** -/
structure Congruence (R : (α : Type) → List α → List α → Prop) : Prop where
  refl : ∀ {α : Type} (l : List α), R α l l
  append : ∀ {α : Type} {l l' k k' : List α}, R α l l' → R α k k' → R α (l ++ k) (l' ++ k')
  filter : ∀ {α : Type} {l l' : List α} (p : α → Bool), R α l l' → R α (l.filter p) (l'.filter p)
  filterMap : ∀ {α β : Type} {l l' : List α} (f : α → Option β), R α l l' →
    R β (l.filterMap f) (l'.filterMap f)
  eraseDups : ∀ {α : Type} [BEq α] [LawfulBEq α] {l l' : List α}, R α l l' →
    R α l.eraseDups l'.eraseDups
  members : ∀ {α : Type} {l l' : List α}, R α l l' → SameMembers l l'
  gatherM : ∀ {α β : Type} {P : HopMemo → Prop} {f f' : α → Query (List β)} {as as' : List α},
    (∀ a ∈ as, Alike P (R β) (f a) (f' a)) → R α as as' →
    Alike P (R β) (gatherM f as) (gatherM f' as')

theorem congruence_sameMembers : Congruence @SameMembers where
  refl := .refl
  append := .append
  filter p h := h.filter p
  filterMap f h := h.filterMap f
  eraseDups h := h.eraseDups
  members h := h
  gatherM := Alike.gatherM

theorem congruence_eq : Congruence fun _ => Eq where
  refl _ := rfl
  append h hk := by rw [h, hk]
  filter p h := by rw [h]
  filterMap f h := by rw [h]
  eraseDups h := by rw [h]
  members h := by rw [h]; exact .refl _
  gatherM {α β P f f' as as'} hf h := by
    subst h
    induction as with
    | nil => exact alike_pure rfl
    | cons a rest ih =>
      obtain ⟨ha, hrest⟩ := List.forall_mem_cons.mp hf
      refine ha.bind fun here here' hhere => (ih hrest).bind fun later later' hlater => ?_
      exact alike_pure (by rw [hhere, hlater])

namespace Congruence

variable {R : (α : Type) → List α → List α → Prop} (h : Congruence R) {l l' : List α}

include h

/-- Tests that agree on the items leave related lists. -/
theorem filter_of_agree {p p' : α → Bool} (hp : ∀ a ∈ l, p a = p' a) (hl : R α l l') :
    R α (l.filter p) (l'.filter p') := by
  rw [List.filter_congr hp]
  exact h.filter p' hl

/-- Functions that agree on the items make related lists. -/
theorem filterMap_of_agree {f f' : α → Option β} (hf : ∀ a ∈ l, f a = f' a) (hl : R α l l') :
    R β (l.filterMap f) (l'.filterMap f') := by
  rw [List.filterMap_congr hf]
  exact h.filterMap f' hl

end Congruence

end Query

/-! ## 3. The expansion of names -/

namespace Graph

open Query

/-- The registered namespace alias that a declaration is. -/
def aliasOf? (g : Graph) (d : DeclId) : Option TableAlias :=
  (g.declaration? d).bind fun data => data.kind.namespaceTarget.map (⟨·, data.range⟩)

theorem any_isNamespaceAlias (g : Graph) (d : DeclId) :
    (g.declaration? d).any (·.kind.isNamespaceAlias) = (g.aliasOf? d).isSome := by
  unfold aliasOf?
  cases g.declaration? d with
  | none => rfl
  | some data =>
    cases hk : data.kind <;> simp [hk, DeclKind.isNamespaceAlias, DeclKind.namespaceTarget]

/-- What the symbol table answers to a file under one path. -/
def declarationsAt (g : Graph) (filter : DeclFilter) (top : TopId) (position : Option Position)
    (p : Path) : Query (List DeclId) := do
  let ds ← g.checkDeclarations top position filter (g.table.findDeclarations p)
  return ds.filter fun d => !(g.declaration? d).any (·.kind.isNamespaceAlias)

/-- **The tables of two graphs answer a file alike**, with namespace aliases from some
    positions and with declarations from some positions. A namespace alias that is found
    starts at a position from which aliases are found alike again. -/
structure TablesAlike (P : HopMemo → Prop) (R : (α : Type) → List α → List α → Prop)
    (S A : Option Position → Prop) (g g' : Graph) (top : TopId) : Prop where
  congruence : Congruence R
  aliases : ∀ position, S position → ∀ key,
    Alike P (fun l l' => R TableAlias l l' ∧ ∀ a ∈ l, S (some a.range.start))
      (g.tableAliases top position key) (g'.tableAliases top position key)
  declarations : ∀ position, A position → ∀ filter key,
    Alike P (R DeclId) (g.declarationsAt filter top position key)
      (g'.declarationsAt filter top position key)

/-- Where the positions do not matter, it is enough that the declarations are alike and
    are the same namespace aliases or none. -/
theorem tablesAlike_anywhere {P : HopMemo → Prop} {R : (α : Type) → List α → List α → Prop}
    {g g' : Graph} {top : TopId} (hR : Congruence R)
    (hdeclarations : ∀ position filter key, Alike P (R DeclId)
      (g.checkDeclarations top position filter (g.table.findDeclarations key))
      (g'.checkDeclarations top position filter (g'.table.findDeclarations key)))
    (haliases : ∀ d, g.aliasOf? d = g'.aliasOf? d) :
    TablesAlike P R (fun _ => True) (fun _ => True) g g' top where
  congruence := hR
  aliases position _ key := by
    refine (hdeclarations position {} key).bind fun ds ds' hds => alike_pure ⟨?_, fun _ _ => trivial⟩
    exact hR.filterMap_of_agree (fun d _ => haliases d) hds
  declarations position _ filter key := by
    refine (hdeclarations position filter key).bind fun ds ds' hds => alike_pure ?_
    refine hR.filter_of_agree (fun d _ => ?_) hds
    rw [any_isNamespaceAlias, any_isNamespaceAlias, haliases]

namespace TablesAlike

variable {P : HopMemo → Prop} {R : (α : Type) → List α → List α → Prop}
  {S A : Option Position → Prop} {g g' : Graph} {top : TopId} (h : TablesAlike P R S A g g' top)
  {position : Option Position} (hposition : S position)

include h hposition

section Expansion

variable {expand expand' : Expansion}
  (he : ∀ target rest start, S (some start) →
    Alike P (R Path) (expand target rest start) (expand' target rest start))

include he

theorem importExpansions (offset : Nat) (name : Path) :
    Alike P (R Path) (g.importExpansions top position offset expand name)
      (g'.importExpansions top position offset expand' name) := by
  unfold Graph.importExpansions
  split
  · exact alike_pure (h.congruence.refl [])
  · refine (h.aliases position hposition _).bind fun _ _ hfound =>
      h.congruence.gatherM (fun a ha => ?_) hfound.1
    split
    · exact alike_warn_bind_both _ (alike_pure (h.congruence.refl []))
    · exact he _ _ _ (hfound.2 a ha)

theorem aliasExpansions (whole : Bool) (offset : Nat) (name : Path) :
    Alike P (Option.Rel (R Path))
      (g.aliasExpansions top position whole offset expand name)
      (g'.aliasExpansions top position whole offset expand' name) := by
  unfold Graph.aliasExpansions
  generalize (if whole then offset else offset + 1) = bound
  split
  · exact alike_pure .none
  · refine (h.aliases position hposition _).bind fun found found' hfound => ?_
    have hseen := h.congruence.filter (fun a => !isAfter a.range.stop position) hfound.1
    dsimp only
    rw [(h.congruence.members hseen).isEmpty]
    split
    · exact alike_pure .none
    · refine (h.congruence.gatherM (fun a ha => ?_) hseen).bind fun _ _ hall =>
        alike_pure (.some hall)
      split
      · exact alike_warn_bind_both _ (alike_pure (h.congruence.refl []))
      · exact he _ _ _ (hfound.2 a (List.mem_of_mem_filter ha))

theorem expandName (whole : Bool) (offset : Nat) (name : Path) :
    Alike P (R Path) (g.expandName top position whole offset expand name)
      (g'.expandName top position whole offset expand' name) := by
  refine (h.importExpansions hposition he _ _).bind fun _ _ himported => ?_
  refine (h.aliasExpansions hposition he _ _ _).bind fun _ _ hrenamed => ?_
  cases hrenamed with
  | none => exact alike_pure (h.congruence.append himported (h.congruence.refl [name]))
  | some hrenamed => exact alike_pure (h.congruence.append himported hrenamed)

end Expansion

/-- Rounds of the expansion make related names of related names. -/
theorem expandRounds {expand expand' : Nat → Expansion}
    (he : ∀ n target rest start, S (some start) →
      Alike P (R Path) (expand n target rest start) (expand' n target rest start))
    (whole : Bool) (n offset : Nat) {names names' : List Path} (hnames : R Path names names') :
    Alike P (R Path) (g.expandRounds top position whole expand n offset names)
      (g'.expandRounds top position whole expand' n offset names') := by
  induction n generalizing offset names names' with
  | zero => exact alike_pure (h.congruence.eraseDups hnames)
  | succ n ih =>
    unfold Graph.expandRounds
    rw [(h.congruence.members hnames).all]
    split
    · exact alike_pure (h.congruence.eraseDups hnames)
    · exact (h.congruence.gatherM (fun name _ => h.expandName hposition (he offset) _ _ name)
        hnames).bind fun _ _ hmore => ih _ (h.congruence.eraseDups hmore)

omit hposition

theorem expandUnder (whole : Bool) (n offset : Nat) (target : QualName) (rest : Path)
    (start : Position) (hstart : S (some start)) :
    Alike P (R Path) (g.expandUnder top whole n offset target rest start)
      (g'.expandUnder top whole n offset target rest start) := by
  induction n generalizing offset target rest start with
  | zero => exact alike_warn_bind_both _ (alike_pure (h.congruence.refl _))
  | succ n ih => exact h.expandRounds hstart ih _ _ _ (h.congruence.refl _)

end TablesAlike

/-! ## 4. The symbol table -/

/-- What the symbol table answers to a file that asks for paths. -/
def declarationsUnder (g : Graph) (filter : DeclFilter) (top : TopId) (paths : List Path)
    (position : Option Position) : Query (List DeclId) := do
  let paths ← g.expandNames top position false paths
  gatherM (fun p => do
    let ds ← g.checkDeclarations top position filter (g.table.findDeclarations p)
    return ds.filter fun d => !(g.declaration? d).any (·.kind.isNamespaceAlias)) paths

theorem declarationsInTable_eq (g : Graph) (filter : DeclFilter) (top : TopId)
    (names : List NameTrie) (position : Option Position) :
    g.declarationsInTable filter top names position =
      g.declarationsUnder filter top ((names.flatMap (·.names)).map (·.path)) position := rfl

variable {g : Graph} (hdepth : g.tops.length ≤ g.limits.importDepth) {top : TopId}
  (htop : g.IsTop top)

include hdepth htop

/-- With depth enough for all files the table answers with the same members,
    whatever the memo holds. -/
theorem tablesAlike_self :
    TablesAlike g.Coherent @SameMembers (fun _ => True) (fun _ => True) g g top := by
  refine tablesAlike_anywhere congruence_sameMembers (fun position filter key => ?_) fun _ => rfl
  refine Alike.gatherM (fun d _ => ?_) (.refl _)
  have hd := yields_checkDeclaration (informed_of_depth hdepth htop) position filter d
  exact alike_of_yields hd hd fun _ _ h h' r => (h r).trans (h' r).symm

/-- **The table answers the same to the same names.** -/
theorem alike_declarationsUnder (filter : DeclFilter) (position : Option Position)
    {paths paths' : List Path} (h : SameMembers paths paths') :
    Alike g.Coherent SameMembers (g.declarationsUnder filter top paths position)
      (g.declarationsUnder filter top paths' position) := by
  have hself := tablesAlike_self hdepth htop
  exact (hself.expandRounds trivial (hself.expandUnder false _) _ _ _ h).bind fun _ _ hpaths =>
    hself.congruence.gatherM (fun p _ => hself.declarations _ trivial filter p) hpaths

end Graph

end ScopeGraph
