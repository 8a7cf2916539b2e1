/-
  File:      ScopeGraph/Proofs/TableSearch.lean
  Subject:   What a name stands for, seen from a registered file.

  A registered file answers from the symbol table. As long as no namespace
  alias is there, names stay as they are on the way to the table
  (`yields_expandNames`), and of the declarations under a name the file sees
  those of its own text up to the position looked from, those of its classes, and
  all those of files to which imports lead (`Sees`).

  * `Graph.yields_findDeclarations`: the search from a registered file, for
    every memo that is coherent;
  * `Workspace.findDeclarations_exact`: the search after every sequence of calls.
-/
import ScopeGraph.Proofs.AliasChains
import ScopeGraph.Proofs.Reachability
import ScopeGraph.Proofs.Registration
import ScopeGraph.Proofs.SourceOrder

namespace ScopeGraph

open Query

/-! ## 1. What a file sees -/

theorem isAfter_eq_false {place : Position} {position : Option Position} :
    isAfter place position = false ↔ ∀ p, position = some p → place ≤ p := by
  cases position with
  | none => simp [isAfter]
  | some p => simp [isAfter, Position.not_lt]

namespace Graph

variable {g : Graph}

/-- A file sees a declaration: in its own text one that starts at or before the
    position looked from, or one of a class; in another file every one, if imports
    lead from the file to that one. -/
def Sees (g : Graph) (top : TopId) (position : Option Position) (d : DeclId) : Prop :=
  ∃ data c other, g.declaration? d = some data ∧ data.context = some c ∧
    g.topOf? c = some other ∧
    (other = top ∧ ((∀ p, position = some p → data.range.start ≤ p) ∨
        ∃ holder, g.context? c = some holder ∧ holder.kind = .classBody) ∨
      other ≠ top ∧ g.TopPath top other)

/-- What a file finds where it sees a declaration: the declaration it stands for,
    if that passes the filter. -/
def Finds (g : Graph) (top : TopId) (position : Option Position) (filter : DeclFilter)
    (d r : DeclId) : Prop :=
  g.Sees top position d ∧ g.resolveAlias d = .ok r ∧
    ∃ found, g.declaration? r = some found ∧ filter.accepts found = true

theorem value_liveDeclaration (g : Graph) (d : DeclId) :
    (Noted.ofExcept (g.liveDeclaration d)).value = g.declaration? d := by
  unfold liveDeclaration
  cases g.declaration? d <;> rfl

theorem isClass_iff {c : ContextId} :
    g.isClass c = true ↔ ∃ holder, g.context? c = some holder ∧ holder.kind = .classBody := by
  unfold isClass
  cases g.context? c <;> simp

theorem sees_iff {top other : TopId} {position : Option Position} {d : DeclId} {data : Declaration}
    {c : ContextId} (hd : g.declaration? d = some data) (hc : data.context = some c)
    (hother : g.topOf? c = some other) :
    g.Sees top position d ↔
      other = top ∧ ((∀ p, position = some p → data.range.start ≤ p) ∨ g.isClass c = true) ∨
        other ≠ top ∧ g.TopPath top other := by
  unfold Sees
  rw [isClass_iff]
  constructor
  · rintro ⟨data', c', other', hd', hc', hother', h⟩
    cases hd.symm.trans hd'
    cases hc.symm.trans hc'
    cases hother.symm.trans hother'
    exact h
  · exact fun h => ⟨data, c, other, hd, hc, hother, h⟩

theorem finds_iff {top : TopId} {position : Option Position} {filter : DeclFilter}
    {d r r' : DeclId} (hsees : g.Sees top position d) (hr : g.resolveAlias d = .ok r) :
    g.Finds top position filter d r' ↔ r' = r ∧ (g.declaration? r).any filter.accepts = true := by
  unfold Finds
  rw [hr, Option.any_eq_true]
  constructor
  · rintro ⟨_, hr', h⟩
    cases hr'
    exact ⟨rfl, h⟩
  · rintro ⟨rfl, h⟩
    exact ⟨hsees, rfl, h⟩

/-- A file is answered only with what it finds, if it is told that it imports
    another one only where imports lead there. -/
theorem yields_finds {P : HopMemo → Prop} {top : TopId}
    (himports : ∀ other,
      Yields P (fun b => b = true → g.TopPath top other) (g.importsTop top other))
    (position : Option Position) (filter : DeclFilter) (d : DeclId) :
    Yields P (fun rs => ∀ r ∈ rs, g.Finds top position filter d r)
      (g.checkDeclaration top position filter d) := by
  have hnothing : Yields P (fun rs : List DeclId => ∀ r ∈ rs, g.Finds top position filter d r)
      (pure []) := yields_pure fun r hr => absurd hr List.not_mem_nil
  refine yields_lift_bind ?_
  rw [value_liveDeclaration]
  cases hd : g.declaration? d with
  | none => exact hnothing
  | some data =>
    dsimp only
    cases hother : data.context.bind g.topOf? with
    | none => exact hnothing
    | some other =>
      obtain ⟨c, hc, hother⟩ := Option.bind_eq_some_iff.mp hother
      dsimp only
      rw [hc, Option.any_some]
      have hsees : Yields P (fun b => b = true → g.Sees top position d)
          (g.fileSees top other data.range.start (g.isClass c) position) := by
        unfold fileSees
        split
        · next hne =>
          refine (himports other).mono fun b hb htrue => ?_
          exact (sees_iff hd hc hother).mpr (.inr ⟨hne, hb htrue⟩)
        · next heq =>
          refine yields_pure fun hb => (sees_iff hd hc hother).mpr (.inl ⟨not_not.mp heq, ?_⟩)
          rw [← isAfter_eq_false]
          simpa using hb
      refine hsees.bind fun b hb => ?_
      cases b with
      | false => exact hnothing
      | true =>
        refine yields_lift_bind ?_
        rw [Noted.value_ofExcept]
        cases hres : g.resolveAlias d with
        | error _ => exact hnothing
        | ok r =>
          dsimp only [Except.toOption]
          cases hfound : g.declaration? r with
          | none => exact hnothing
          | some found =>
            refine yields_pure fun r' hr' => ?_
            split at hr'
            · next haccepts =>
              rw [List.mem_singleton.mp hr']
              exact ⟨hb rfl, hres, found, hfound, haccepts⟩
            · exact absurd hr' List.not_mem_nil

/-- **A file is told exactly of the files to which imports lead**, from every memo with
    `P`, and these memos are kept. -/
structure Informed (g : Graph) (P : HopMemo → Prop) (top : TopId) : Prop where
  keeps : ∀ s t, Keeps P (g.hopTowards s t)
  imports : ∀ other, Yields P (fun b => b = true ↔ g.TopPath top other) (g.importsTop top other)

/-- With depth enough for all files every file is so informed. -/
theorem informed_of_depth (hdepth : g.tops.length ≤ g.limits.importDepth) {top : TopId}
    (htop : g.IsTop top) : g.Informed g.Coherent top :=
  ⟨keeps_hopTowards, yields_importsTop hdepth htop⟩

section Informed

variable {P : HopMemo → Prop} {top : TopId} (hinformed : g.Informed P top)

include hinformed

theorem yields_fileSees (other : TopId) (start : Position) (anywhere : Bool)
    (position : Option Position) :
    Yields P
      (fun b => b = true ↔
        other = top ∧ ((∀ p, position = some p → start ≤ p) ∨ anywhere = true) ∨
          other ≠ top ∧ g.TopPath top other)
      (g.fileSees top other start anywhere position) := by
  unfold fileSees
  split
  · next hne =>
    refine (hinformed.imports other).mono fun b hb => ?_
    simp [hb, hne]
  · next heq =>
    refine yields_pure ?_
    have heq : other = top := not_not.mp heq
    simp [heq, isAfter_eq_false]

/-- **A file is answered with what it finds.** -/
theorem yields_checkDeclaration (position : Option Position) (filter : DeclFilter) (d : DeclId) :
    Yields P (fun rs => ∀ r, r ∈ rs ↔ g.Finds top position filter d r)
      (g.checkDeclaration top position filter d) := by
  refine yields_lift_bind ?_
  rw [value_liveDeclaration]
  cases hd : g.declaration? d with
  | none =>
    refine yields_nothing ?_
    rintro e ⟨⟨data, _, _, hd', _⟩, _⟩
    cases hd.symm.trans hd'
  | some data =>
    dsimp only
    cases hother : data.context.bind g.topOf? with
    | none =>
      refine yields_nothing ?_
      rintro e ⟨⟨data', c, other, hd', hc, hother', _⟩, _⟩
      cases hd.symm.trans hd'
      rw [hc] at hother
      cases hother.symm.trans hother'
    | some other =>
      obtain ⟨c, hc, hother⟩ := Option.bind_eq_some_iff.mp hother
      dsimp only
      rw [hc, Option.any_some]
      refine (yields_fileSees hinformed _ _ _ _).bind fun b hb => ?_
      rw [← sees_iff hd hc hother] at hb
      cases b with
      | false => exact yields_nothing fun e h => absurd (hb.mpr h.1) (by decide)
      | true =>
        refine yields_lift_bind ?_
        have hsees := hb.mp rfl
        rw [Noted.value_ofExcept]
        cases hres : g.resolveAlias d with
        | error x =>
          refine yields_nothing ?_
          rintro r ⟨_, hr, _⟩
          cases hres.symm.trans hr
        | ok r =>
          dsimp only [Except.toOption]
          cases hfound : g.declaration? r with
          | none =>
            refine yields_nothing fun r' h => ?_
            simp [finds_iff hsees hres, hfound] at h
          | some found =>
            refine yields_pure fun r' => ?_
            simp [finds_iff hsees hres, hfound, and_comm]

end Informed

/-! ## 2. Names stay as they are -/

/-- No namespace alias is there. -/
def Unaliased (g : Graph) : Prop :=
  ∀ d data, g.declaration? d = some data → data.kind.isNamespaceAlias = false

instance (g : Graph) : Decidable g.Unaliased :=
  decidable_of_iff (∀ e ∈ g.declarations.entries, e.2.kind.isNamespaceAlias = false)
    ⟨fun h d data hd => h (d, data) (Store.mem_entries_iff.mpr hd),
      fun h e he => h e.1 e.2 (Store.mem_entries_iff.mp he)⟩

section Unaliased

variable {P : HopMemo → Prop} (hP : ∀ s t, Keeps P (g.hopTowards s t)) (hg : g.Unaliased)

include hP hg

theorem yields_tableAliases (top : TopId) (position : Option Position) (key : Path) :
    Yields P (· = []) (g.tableAliases top position key) := by
  refine Yields.bind (keeps_gatherM (keeps_checkDeclaration hP top position {}) _) fun ds _ => ?_
  refine yields_pure (List.filterMap_eq_nil_iff.mpr fun d _ => ?_)
  cases hd : g.declaration? d with
  | none => rfl
  | some data =>
    have hkind := hg d data hd
    cases hk : data.kind with
    | namespaceAlias target =>
      rw [hk] at hkind
      cases hkind
    | _ => simp [hk, DeclKind.namespaceTarget]

theorem yields_importExpansions (top : TopId) (position : Option Position) (offset : Nat)
    (expand : Expansion) (name : Path) :
    Yields P (· = []) (g.importExpansions top position offset expand name) := by
  unfold importExpansions
  split
  · exact yields_pure rfl
  · refine (yields_tableAliases hP hg _ _ _).bind fun found hfound => ?_
    rw [hfound]
    exact yields_pure rfl

theorem yields_aliasExpansions (top : TopId) (position : Option Position) (whole : Bool)
    (offset : Nat) (expand : Expansion) (name : Path) :
    Yields P (· = none) (g.aliasExpansions top position whole offset expand name) := by
  unfold aliasExpansions
  generalize (if whole then offset else offset + 1) = bound
  split
  · exact yields_pure rfl
  · refine (yields_tableAliases hP hg _ _ _).bind fun found hfound => ?_
    rw [hfound]
    exact yields_pure rfl

theorem yields_expandName (top : TopId) (position : Option Position) (whole : Bool)
    (offset : Nat) (expand : Expansion) (name : Path) :
    Yields P (· = [name]) (g.expandName top position whole offset expand name) := by
  refine (yields_importExpansions hP hg _ _ _ _ _).bind fun imported himported => ?_
  refine (yields_aliasExpansions hP hg _ _ _ _ _ _).bind fun renamed hrenamed => ?_
  rw [himported, hrenamed]
  exact yields_pure rfl

/-- Rounds of the expansion keep the names that there are, each once. -/
theorem yields_expandRounds (top : TopId) (position : Option Position) (whole : Bool)
    (expand : Nat → Expansion) (n offset : Nat) (names : List Path) :
    Yields P (· = names.eraseDups) (g.expandRounds top position whole expand n offset names) := by
  have hround : ∀ offset ps, ps.eraseDups = names.eraseDups →
      Yields P (fun more => more.eraseDups.eraseDups = names.eraseDups)
        (gatherM (g.expandName top position whole offset (expand offset)) ps) := by
    intro offset ps hps
    have hsame := yields_gatherM_eq ps fun name _ =>
      yields_expandName hP hg top position whole offset (expand offset) name
    refine hsame.mono fun more hmore => ?_
    rw [hmore, List.flatMap_singleton', eraseDups_of_nodup (nodup_eraseDups ps), hps]
  exact yields_rounds (fun _ h => h) hround n offset rfl

theorem yields_expandNames (top : TopId) (position : Option Position) (whole : Bool)
    (names : List Path) :
    Yields P (· = names.eraseDups) (g.expandNames top position whole names) :=
  yields_expandRounds hP hg _ _ _ _ _ _ _

end Unaliased

end Graph

/-! ## 3. The names of a trie of one path -/

namespace NameTrie

theorem path_extend (before : QualName) {s : Ident} (hs : s ≠ "") (rooted : Bool) :
    (extend before s rooted).path = before.path ++ [s] := by
  have hs' : s.isEmpty = false := by simpa using hs
  unfold extend
  rw [hs']
  cases before.isEmpty <;> rfl

/-- A path without empty segments is the one name of its trie. -/
theorem namesAfter_chain (before : QualName) (rooted : Bool) {p : Path} (hp : "" ∉ p) :
    ((chain rooted [] p).namesAfter before).map (·.path) = [before.path ++ p] := by
  induction p generalizing before rooted with
  | nil =>
    show [(extend before "" rooted).path] = _
    unfold extend
    cases before.isEmpty <;> simp [QualName.withRoot]
  | cons s rest ih =>
    have hs : s ≠ "" := fun e => hp (e ▸ List.mem_cons_self)
    have hrest : "" ∉ rest := fun h => hp (List.mem_cons_of_mem s h)
    have hpath := path_extend before hs rooted
    cases rest with
    | nil =>
      show [(extend before s rooted).path] = _
      rw [hpath]
    | cons t more =>
      have ih := ih (extend before s rooted) false hrest
      unfold chain namesAfter namesAfterAll namesAfterAll
      rw [List.append_nil, ih, hpath, List.append_assoc]
      rfl

theorem names_ofName {q : QualName} (hq : "" ∉ q.path) : (ofName q).names.map (·.path) = [q.path] :=
  namesAfter_chain {} q.rooted hq

end NameTrie

/-! ## 4. The search from a registered file -/

namespace Graph

variable {g : Graph}

theorem isRegistered_iff {t : TopId} :
    g.isRegistered t = true ↔
      ∃ data, g.context? t.context = some data ∧ data.isTop = true ∧ data.registered = true := by
  unfold isRegistered
  cases g.context? t.context <;> simp

theorem isTop_of_registered {t : TopId} (h : g.isRegistered t = true) : g.IsTop t := by
  obtain ⟨data, hdata, hfile, _⟩ := isRegistered_iff.mp h
  exact isTop_iff.mpr ⟨data, hdata, hfile⟩

/-- A registered file is the end of the way of a search. -/
theorem searchUp_registered {α : Type} (q : Quest α) (climbs : Bool) {top : TopId} {data : Context}
    (hdata : g.context? top.context = some data) (htop : data.isTop = true)
    (hregistered : data.registered = true) (position : Option Position) (above : List ContextId)
    (names : List NameTrie) (found : List α) :
    g.searchUp q climbs position (top.context :: above) names found =
      (found ++ ·) <$> q.inTable top names position := by
  simp [searchUp, searchLevel, hdata, htop, hregistered]

/-- A search that starts in a registered file is answered by the table. -/
theorem search_registered {α : Type} [BEq α] (q : Quest α) (climbs : Bool) {top : TopId}
    (h : g.isRegistered top = true) (name : QualName) (position : Option Position) :
    g.search q climbs top.context name position =
      List.eraseDups <$> q.inTable top [.ofName name] position := by
  obtain ⟨data, hdata, hfile, hflag⟩ := isRegistered_iff.mp h
  have hlive : g.hasContext top.context = true := Option.isSome_iff_exists.mpr ⟨data, hdata⟩
  obtain ⟨above, habove⟩ : ∃ above, g.lineage top.context = top.context :: above := ⟨_, rfl⟩
  unfold search
  rw [if_pos hlive, habove, searchUp_registered _ _ hdata hfile hflag]
  simp only [List.nil_append, map_eq_pure_bind, bind_assoc, pure_bind]

theorem yields_declarationsInTable {P : HopMemo → Prop} {top : TopId}
    (hinformed : g.Informed P top) (hg : g.Unaliased) (filter : DeclFilter) (names : List NameTrie)
    (position : Option Position) :
    Yields P
      (fun rs => ∀ r, r ∈ rs ↔ ∃ p ∈ (names.flatMap (·.names)).map (·.path),
        ∃ d ∈ g.table.findDeclarations p, g.Finds top position filter d r)
      (g.declarationsInTable filter top names position) := by
  refine (yields_expandNames hinformed.keeps hg top position false _).bind fun paths hpaths => ?_
  have hall := yields_gatherM (P := P)
    (f := fun p => do
      let ds ← g.checkDeclarations top position filter (g.table.findDeclarations p)
      return ds.filter fun d => !(g.declaration? d).any (·.kind.isNamespaceAlias))
    (S := fun p r => ∃ d ∈ g.table.findDeclarations p, g.Finds top position filter d r) paths
    fun p _ => ?_
  · refine hall.mono fun rs hrs r => ?_
    rw [hrs, hpaths]
    simp only [List.mem_eraseDups]
  · have hcheck := yields_gatherM (g.table.findDeclarations p) fun d _ =>
      yields_checkDeclaration hinformed position filter d
    refine hcheck.bind fun rs hrs => yields_pure fun r => ?_
    rw [List.mem_filter, hrs]
    refine and_iff_left_of_imp ?_
    rintro ⟨d, _, _, _, found, hfound, _⟩
    simp [hfound, hg r found hfound]

/-- **The search for a name from a registered file** finds what stands under the
    name in the table and is seen. -/
theorem yields_findDeclarations (hdepth : g.tops.length ≤ g.limits.importDepth) {top : TopId}
    (hregistered : g.isRegistered top = true) (hg : g.Unaliased) {name : QualName}
    (hname : "" ∉ name.path) (position : Option Position) (type : Option TypeId)
    (flags : SearchFlags) :
    Yields g.Coherent
      (fun rs => ∀ r, r ∈ rs ↔ ∃ d ∈ g.table.findDeclarations name.path,
        g.Finds top position ⟨type, flags.onlyFunctions⟩ d r)
      (g.findDeclarations top.context name position type flags) := by
  have hinformed := informed_of_depth hdepth (isTop_of_registered hregistered)
  have hnames : ([NameTrie.ofName name].flatMap (·.names)).map (·.path) = [name.path] := by
    rw [List.flatMap_cons, List.flatMap_nil, List.append_nil, NameTrie.names_ofName hname]
  have htable : Yields g.Coherent
      (fun rs => ∀ r, r ∈ rs ↔ ∃ d ∈ g.table.findDeclarations name.path,
        g.Finds top position ⟨type, flags.onlyFunctions⟩ d r)
      (g.declarationsInTable ⟨type, flags.onlyFunctions⟩ top [.ofName name] position) := by
    refine (yields_declarationsInTable hinformed hg _ _ _).mono fun rs hrs r => ?_
    rw [hrs, hnames]
    simp only [List.mem_singleton, exists_eq_left]
  unfold findDeclarations
  rw [search_registered _ _ hregistered, map_eq_pure_bind]
  refine htable.bind fun rs hrs => yields_pure fun r => ?_
  rw [List.mem_eraseDups, hrs]

end Graph

/-! ## 5. After every sequence of calls -/

theorem DeclFilter.accepts_iff {filter : DeclFilter} {data : Declaration} :
    filter.accepts data = true ↔ (∀ t, filter.type = some t → data.type = some t) ∧
      (filter.onlyFunctions = true → data.kind = .function) := by
  have hfunction : data.kind.isFunction = true ↔ data.kind = .function := by
    cases data.kind <;> simp [DeclKind.isFunction]
  unfold accepts
  cases filter.type <;> cases filter.onlyFunctions <;> simp [hfunction, and_comm]

/-- What a name stands for, seen from a registered file: a declaration that
    belongs into the table under the name, that the file sees, and the end of its
    alias chain, if that has the type asked for and is a function if it has to be. -/
def Graph.StandsFor (g : Graph) (top : TopId) (name : Path) (position : Option Position)
    (type : Option TypeId) (flags : SearchFlags) (r : DeclId) : Prop :=
  ∃ d found, g.DeclaredUnder name d ∧ g.Sees top position d ∧ g.resolveAlias d = .ok r ∧
    g.declaration? r = some found ∧ (∀ t, type = some t → found.type = some t) ∧
    (flags.onlyFunctions = true → found.kind = .function)

namespace Workspace

/-- Three registered files of which each imports the next. All declare `x`: the
    third one a function, the second one an alias of it, and the first one a
    variable in its last line. -/
def sharedName : List Call :=
  [.change (.createTop ⟨0⟩ {}), .change (.createTop ⟨1⟩ {}), .change (.createTop ⟨2⟩ {}),
    .change (.addImport ⟨0, 0⟩ ⟨1, 0⟩ none), .change (.addImport ⟨1, 0⟩ ⟨2, 0⟩ none),
    .change (.declare ⟨2, 0⟩ "x" {} .function),
    .change (.declare ⟨1, 0⟩ "x" {} (.alias (some ⟨0, 0⟩))),
    .change (.declare ⟨0, 0⟩ "x" (.lines 8 9) .ordinary),
    .change (.register ⟨⟨0, 0⟩⟩), .change (.register ⟨⟨1, 0⟩⟩), .change (.register ⟨⟨2, 0⟩⟩)]

/-- **A registered file finds under a name what the name stands for**, as long as
    no namespace alias is there and there are not more live tops than the walk
    from file to file is deep. -/
theorem findDeclarations_exact (limits : Limits) (calls : List Call)
    (hfrees : (empty limits).FewFrees calls) (hnest : (empty limits).NestsNoTop calls)
    (hplain : ((empty limits).run calls).graph.Unaliased)
    (hdepth : ((empty limits).run calls).graph.tops.length ≤
      ((empty limits).run calls).graph.limits.importDepth)
    (top : TopId) (hregistered : ((empty limits).run calls).graph.isRegistered top = true)
    (name : QualName) (hname : "" ∉ name.path) (position : Option Position)
    (type : Option TypeId) (flags : SearchFlags) (r : DeclId) :
    let w := (empty limits).run calls
    r ∈ (w.ask (·.findDeclarations top.context name position type flags)).1 ↔
      w.graph.StandsFor top name.path position type flags r := by
  intro w
  have hcoherent := (faithful_run hfrees).coherent
  have hsearch := (Graph.yields_findDeclarations hdepth hregistered hplain hname position type flags
    _ hcoherent).1 r
  refine hsearch.trans ?_
  simp only [(settled_run hfrees hnest).orderly.mem_findDeclarations, Graph.Finds,
    DeclFilter.accepts_iff]
  constructor
  · rintro ⟨d, hd, hsees, hr, found, hfound, htype, hfunction⟩
    exact ⟨d, found, hd, hsees, hr, hfound, htype, hfunction⟩
  · rintro ⟨d, found, hd, hsees, hr, hfound, htype, hfunction⟩
    exact ⟨d, hd, hsees, hr, found, hfound, htype, hfunction⟩

/-- In the sixth line the name stands for the function, of which the alias and the
    function itself are seen through imports, and not for the variable below. -/
theorem findDeclarations_exact_shared :
    let w := (empty { importDepth := 3 }).run sharedName
    let stands := w.graph.StandsFor ⟨⟨0, 0⟩⟩ ["x"] (some ⟨5, 0⟩) none {}
    (w.ask (·.findDeclarations ⟨0, 0⟩ { path := ["x"] } (some ⟨5, 0⟩) none {})).1 = [⟨0, 0⟩] ∧
      stands ⟨0, 0⟩ ∧ ¬ stands ⟨2, 0⟩ := by
  have hexact := findDeclarations_exact { importDepth := 3 } sharedName
    (fewFrees_of_length (by decide)) (by decide +kernel) (by decide +kernel) (by decide +kernel)
    ⟨⟨0, 0⟩⟩ (by decide +kernel) { path := ["x"] } (by decide) (some ⟨5, 0⟩) none {}
  refine ⟨by decide +kernel, (hexact _).mp (by decide +kernel), fun h => ?_⟩
  exact absurd ((hexact _).mpr h) (by decide +kernel)

end Workspace

end ScopeGraph
