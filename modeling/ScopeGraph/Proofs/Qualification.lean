/-
  File:      ScopeGraph/Proofs/Qualification.lean
  Subject:   The names under which a search from inside namespaces asks the table.

  On the way out of a namespace a search adds what the name may mean inside it: the name
  behind the name of the namespace, or behind a part of it, with the path of all that
  encloses the namespace in front. A registered file looks up all these names and the
  name itself.

  * `Graph.meanings`: these names, in the order in which the file looks them up;
  * `Graph.paths_leaving`: the names of a search after a number of contexts;
  * `Workspace.findDeclarations_meanings`: a search finds what the file finds under these
    names.
-/
import ScopeGraph.Proofs.Shadowing

namespace ScopeGraph

open Query

/-! ## 1. What a name may mean -/

namespace Graph

/-- What a name may mean inside a context, if that is a namespace: it stands behind a
    part of the name of the namespace, the longest part first, and the path of what
    encloses the namespace stands in front. -/
def meantIn (g : Graph) (q : Path) (b : ContextId) : List Path :=
  match g.context? b with
  | some data =>
    if data.kind = .nameSpace then
      data.scopeName.path.fronts.map (data.parent.elim [] g.scopePath ++ · ++ q)
    else []
  | none => []

/-- What a name may mean inside contexts of which each is in the next one: what it means
    in the outermost first, and the name itself last. -/
def meanings (g : Graph) (below : List ContextId) (q : Path) : List Path :=
  below.reverse.flatMap (g.meantIn q) ++ [q]

variable {g : Graph} {c : ContextId} {q n : Path} {below : List ContextId}

theorem meantIn_of_context? {data : Context} (hc : g.context? c = some data) (q : Path) :
    g.meantIn q c = if data.kind = .nameSpace then
      data.scopeName.path.fronts.map (data.parent.elim [] g.scopePath ++ · ++ q) else [] := by
  unfold meantIn
  rw [hc]

theorem mem_meantIn : n ∈ g.meantIn q c ↔ ∃ data ∈ g.context? c, data.kind = .nameSpace ∧
    ∃ p, p ≠ [] ∧ p <+: data.scopeName.path ∧ n = data.parent.elim [] g.scopePath ++ p ++ q := by
  unfold meantIn
  cases hc : g.context? c with
  | none => simp
  | some data =>
    by_cases hkind : data.kind = .nameSpace
    · simp [hkind, Path.mem_fronts, and_assoc, eq_comm]
    · simp [hkind]

theorem mem_meanings : n ∈ g.meanings below q ↔ n = q ∨ ∃ b ∈ below, n ∈ g.meantIn q b := by
  unfold meanings
  rw [List.mem_append, List.mem_singleton, or_comm, List.mem_flatMap]
  simp only [List.mem_reverse]

end Graph

/-! ## 2. The names of a search -/

namespace Graph

open NameTrie

variable {g : Graph} {c : ContextId} {below : List ContextId} {q : QualName}
  {names : List NameTrie} (ht : g.outline.Tree) (hnames : Sole q names)

include ht hnames

/-- Out of a namespace come the names that are meant inside it, in front of those that
    were looked for before. -/
theorem paths_upwards {data : Context} (hc : g.context? c = some data) :
    (g.upwards data (data.parent.elim [] g.lineage) names).flatMap paths =
      (g.meantIn q.path c).map Path.solid ++ names.flatMap paths := by
  unfold upwards
  rw [meantIn_of_context? hc]
  by_cases hkind : data.kind = .nameSpace
  · by_cases hnone : data.scopeName.path = []
    · simp [hkind, hnone, QualName.isEmpty, Path.fronts]
    · have hsome : ∃ u ∈ names, u.rooted = false := ⟨_, hnames.mem, hnames.free⟩
      have hfree : (names.filter (!·.rooted)).flatMap paths = [q.path.solid] := by
        rw [hnames, List.flatMap_singleton, paths_ofName]
      have hbranch : (g.qualifiedBy ((ofName data.scopeName).graft names)
          (data.parent.elim [] g.lineage)).fromRoot.paths =
            (data.scopeName.path.fronts.map
              (data.parent.elim [] g.scopePath ++ · ++ q.path)).map Path.solid := by
        rw [paths_fromRoot, paths_qualifiedBy ht, ofName, paths_graft hsome hnone, hfree,
          List.map_map]
        simp only [List.map_singleton, ← List.map_eq_flatMap, List.map_map]
        refine List.map_congr_left fun front _ => ?_
        simp only [Function.comp_apply, Path.solid_append, List.append_assoc]
      simp [hkind, hnone, QualName.isEmpty, hasNext_graft hsome, hbranch]
  · simp [hkind]

/-- **The names of a search that came through contexts.** -/
theorem paths_leaving (below : List ContextId) :
    (below.foldl g.leaving names).flatMap paths =
      (below.reverse.flatMap (g.meantIn q.path)).map Path.solid ++ names.flatMap paths := by
  induction below generalizing names with
  | nil => rfl
  | cons b rest ih =>
    have hstep : (g.leaving names b).flatMap paths =
        (g.meantIn q.path b).map Path.solid ++ names.flatMap paths := by
      cases hb : g.context? b with
      | none => simp [leaving, meantIn, hb]
      | some data =>
        rw [leaving_of_context? hb]
        exact paths_upwards ht hnames hb
    have hsole : Sole q (g.leaving names b) := sole_leaving hnames [b]
    rw [List.foldl_cons, ih hsole, hstep, List.reverse_cons,
      List.flatMap_append, List.flatMap_singleton, List.map_append, List.append_assoc]

end Graph

/-! ## 3. Up to a registered file -/

namespace Graph

open NameTrie

variable {g : Graph} {P : HopMemo → Prop} {c : ContextId} {t : TopId} {below : List ContextId}
  {q : QualName} {position : Option Position} {type : Option TypeId} {flags : SearchFlags}

/-- Where nothing is imported imports lead nowhere. -/
theorem Importless.not_topPath (himports : g.Importless) (s t : TopId) : ¬ g.TopPath s t := by
  intro hpath
  obtain ⟨next, hedge, _⟩ := Relation.TransGen.head'_iff.mp hpath
  obtain ⟨data, hdata, hmem⟩ := hedge.imports
  unfold Context.importsDirectly at hmem
  rw [himports _ data hdata] at hmem
  cases hmem

/-- Where nothing is imported no file is found to import another. -/
theorem Importless.yields_importsTop (himports : g.Importless) (ht : g.IsTop t) (other : TopId) :
    Yields g.Coherent (· = false) (g.importsTop t other) := by
  refine (yields_topPath ht other).mono fun b hb => ?_
  cases b with
  | false => rfl
  | true => exact absurd (hb rfl) (himports.not_topPath t other)

/-- **A search that comes up to a registered file** is answered by the table, to what the
    name may mean. -/
theorem yields_findDeclarations_registered {Q : List DeclId → Prop} (ht : g.outline.Tree)
    (hg : g.Unaliased) (hclimbs : below ≠ [] → flags.climbs = true)
    (hregistered : g.isRegistered t = true) (h : g.Ascends c below t.context)
    (hbelow : ∀ b ∈ below, g.Passable b) (hq : q.rooted = false)
    (hmute : (ofName q).hasNext = false → ∀ b ∈ below,
      ¬ g.Answers (ofName q).segment position ⟨type, flags.onlyFunctions⟩ b)
    (htable : ∀ names : List NameTrie,
      names.flatMap paths = (g.meanings below q.path).map Path.solid →
      Yields P (fun found => Q found.eraseDups)
        (g.declarationsInTable ⟨type, flags.onlyFunctions⟩ t names position)) :
    Yields P Q (g.findDeclarations c q position type flags) := by
  have hnames : (below.foldl g.leaving [ofName q]).flatMap paths =
      (g.meanings below q.path).map Path.solid := by
    rw [paths_leaving ht (sole_ofName hq), meanings, List.map_append, List.flatMap_singleton,
      paths_ofName, List.map_singleton]
  cases h with
  | here =>
    unfold findDeclarations
    rw [search_registered _ _ hregistered, map_eq_pure_bind]
    exact (htable _ hnames).bind fun found hfound => yields_pure hfound
  | up hp hup =>
    have hway := Ascends.up hp hup
    obtain ⟨top, htop, hfile, hflag⟩ := isRegistered_iff.mp hregistered
    have hc : g.hasContext c = true :=
      Option.isSome_iff_exists.mpr (hway.live c List.mem_cons_self)
    refine yields_findDeclarations_through ht (hclimbs (List.cons_ne_nil _ _)) hc hway hq
      (fun b hb data names hdata _ => ?_) hmute ?_
    · exact (hbelow b hb).plain hdata (hg.aliased b position _ names)
    · rw [lineage_unfold ht, searchUp_registered _ _ htop hfile hflag, map_eq_pure_bind]
      refine (htable _ hnames).bind fun found hfound => yields_pure ?_
      rwa [List.nil_append]

/-- What a search that comes up to a registered file finds. -/
theorem yields_findDeclarations_meanings (ht : g.outline.Tree) (hg : g.Unaliased)
    (hinformed : g.Informed P t) (hclimbs : below ≠ [] → flags.climbs = true)
    (hregistered : g.isRegistered t = true) (h : g.Ascends c below t.context)
    (hbelow : ∀ b ∈ below, g.Passable b) (hq : q.rooted = false)
    (hmute : (ofName q).hasNext = false → ∀ b ∈ below,
      ¬ g.Answers (ofName q).segment position ⟨type, flags.onlyFunctions⟩ b) :
    Yields P (fun found => ∀ d, d ∈ found ↔ ∃ n ∈ g.meanings below q.path,
        ∃ e ∈ g.table.findDeclarations n.solid, g.Finds t position ⟨type, flags.onlyFunctions⟩ e d)
      (g.findDeclarations c q position type flags) := by
  refine yields_findDeclarations_registered ht hg hclimbs hregistered h hbelow hq hmute
    fun names hnames => ?_
  refine (yields_declarationsInTable hinformed hg _ names position).mono fun found hfound d => ?_
  have hasked : (names.flatMap (·.names)).map (·.path) = (g.meanings below q.path).map Path.solid :=
    (List.map_flatMap ..).trans hnames
  rw [List.mem_eraseDups, hfound, hasked]
  simp only [List.mem_map, exists_exists_and_eq_and]

end Graph

/-! ## 4. After every sequence of calls -/

namespace Workspace

open ScopeGraph.Graph NameTrie

/-- **A search from inside namespaces** finds what the file finds under the name itself,
    or under the name behind a part of the name of a namespace, with the path of what
    encloses that namespace in front. This is so if no context on the way to the file is
    registered, imports anything or has an answer of its own. -/
theorem findDeclarations_meanings (limits : Limits) (calls : List Call)
    (hfrees : (empty limits).FewFrees calls)
    (hplain : ((empty limits).run calls).graph.Unaliased)
    (hdepth : ((empty limits).run calls).graph.tops.length ≤
      ((empty limits).run calls).graph.limits.importDepth)
    (t : TopId) (hregistered : ((empty limits).run calls).graph.isRegistered t = true)
    (c : ContextId) (below : List ContextId)
    (hway : ((empty limits).run calls).graph.Ascends c below t.context)
    (hbelow : ∀ b ∈ below, ((empty limits).run calls).graph.Passable b)
    (q : QualName) (hq : q.rooted = false) (hne : q.path ≠ []) (position : Option Position)
    (type : Option TypeId) (flags : SearchFlags) (hparents : flags.skipParents = false)
    (himported : flags.imported = false)
    (hmute : ∀ x, q.path = [x] → ∀ b ∈ below, ¬ ((empty limits).run calls).graph.Answers x position
      ⟨type, flags.onlyFunctions⟩ b) (d : DeclId) :
    let w := (empty limits).run calls
    let find c q := (w.ask (·.findDeclarations c q position type flags)).1
    d ∈ find c q ↔ d ∈ find t.context q ∨
      ∃ b ∈ below, ∃ data ∈ w.graph.context? b, data.kind = .nameSpace ∧
        ∃ p, p ≠ [] ∧ p <+: data.scopeName.path ∧
          d ∈ find t.context { path := data.parent.elim [] w.graph.scopePath ++ p ++ q.path } := by
  intro w find
  obtain ⟨_, hkept, _⟩ := kept_run hfrees
  have ht : w.graph.outline.Tree := hkept.kempt.consistent.tree
  have hcoherent := (faithful_run hfrees).coherent
  have hinformed := informed_of_depth hdepth (isTop_of_registered hregistered)
  have hlocal : (ofName q).hasNext = false → ∀ b ∈ below,
      ¬ w.graph.Answers (ofName q).segment position ⟨type, flags.onlyFunctions⟩ b := by
    intro hleaf
    obtain ⟨path, rooted⟩ := q
    cases path with
    | nil => exact absurd rfl hne
    | cons x rest =>
      cases rest with
      | nil => exact hmute x rfl
      | cons y rest => cases hleaf
  have hfrom := (yields_findDeclarations_meanings ht hplain hinformed
    (fun _ => SearchFlags.climbs_eq_true hparents himported) hregistered hway hbelow hq hlocal _
    hcoherent).1 d
  -- the file itself is asked for one name at a time
  have hat : ∀ n : Path, d ∈ find t.context { path := n } ↔
      ∃ e ∈ w.graph.table.findDeclarations n.solid,
        w.graph.Finds t position ⟨type, flags.onlyFunctions⟩ e d := by
    intro n
    refine ((yields_findDeclarations_meanings (q := { path := n }) ht hplain hinformed
      (fun h => absurd rfl h) hregistered (.here t.context) (fun b hb => absurd hb List.not_mem_nil)
      rfl (fun _ b hb => absurd hb List.not_mem_nil) _ hcoherent).1 d).trans ?_
    simp [meanings]
  have hself : ({ path := q.path } : QualName) = q := by rw [← hq]
  have hatSelf := hat q.path
  rw [hself] at hatSelf
  refine hfrom.trans ?_
  simp only [mem_meanings, mem_meantIn, hat, hatSelf]
  constructor
  · rintro ⟨n, rfl | ⟨b, hb, data, hdata, hkind, p, hp, hfront, rfl⟩, hfound⟩
    · exact .inl hfound
    · exact .inr ⟨b, hb, data, hdata, hkind, p, hp, hfront, hfound⟩
  · rintro (hfound | ⟨b, hb, data, hdata, hkind, p, hp, hfront, hfound⟩)
    · exact ⟨_, .inl rfl, hfound⟩
    · exact ⟨_, .inr ⟨b, hb, data, hdata, hkind, p, hp, hfront, rfl⟩, hfound⟩

/-- A registered file with a namespace `A::B`, in this a namespace `C` that declares `x`,
    and in `C` a function. The file imports another one, where a namespace `A` declares
    `x` too. -/
def namesAround : List Call :=
  [.change (.createTop ⟨0⟩ {}), .change (.createContext ⟨0, 0⟩ {}),
    .change (.setKind ⟨1, 0⟩ .nameSpace), .change (.setScopeName ⟨1, 0⟩ { path := ["A", "B"] }),
    .change (.createContext ⟨1, 0⟩ {}), .change (.setKind ⟨2, 0⟩ .nameSpace),
    .change (.setScopeName ⟨2, 0⟩ { path := ["C"] }),
    .change (.declare ⟨2, 0⟩ "x" {} .ordinary), .change (.createContext ⟨2, 0⟩ {}),
    .change (.setKind ⟨3, 0⟩ .function), .change (.createTop ⟨1⟩ {}),
    .change (.createContext ⟨4, 0⟩ {}), .change (.setKind ⟨5, 0⟩ .nameSpace),
    .change (.setScopeName ⟨5, 0⟩ { path := ["A"] }),
    .change (.declare ⟨5, 0⟩ "x" {} .ordinary), .change (.addImport ⟨0, 0⟩ ⟨4, 0⟩ none),
    .change (.register ⟨⟨0, 0⟩⟩), .change (.register ⟨⟨4, 0⟩⟩)]

/-- The function finds `x` as `A::B::C::x` and, in the other file, as `A::x`. -/
theorem findDeclarations_meanings_around :
    let w := (empty {}).run namesAround
    let find c path := (w.ask (·.findDeclarations c { path := path } none none {})).1
    find ⟨0, 0⟩ ["x"] = [] ∧ ⟨0, 0⟩ ∈ find ⟨0, 0⟩ ["A", "B", "C", "x"] ∧
      ⟨1, 0⟩ ∈ find ⟨0, 0⟩ ["A", "x"] ∧ ⟨0, 0⟩ ∈ find ⟨3, 0⟩ ["x"] ∧ ⟨1, 0⟩ ∈ find ⟨3, 0⟩ ["x"] := by
  intro w find
  have hway : w.graph.Ascends ⟨3, 0⟩ [⟨3, 0⟩, ⟨2, 0⟩, ⟨1, 0⟩] ⟨0, 0⟩ :=
    .up (by decide +kernel) (.up (by decide +kernel) (.up (by decide +kernel) (.here _)))
  have hmute : ∀ x, ["x"] = [x] → ∀ b ∈ [⟨3, 0⟩, ⟨2, 0⟩, ⟨1, 0⟩],
      ¬ w.graph.Answers x none {} b := by
    intro x hx
    cases hx
    decide +kernel
  have hmeant := findDeclarations_meanings {} namesAround (fewFrees_of_length (by decide))
    (by decide +kernel) (by decide +kernel) ⟨⟨0, 0⟩⟩ (by decide +kernel) ⟨3, 0⟩ _ hway
    (by decide +kernel) { path := ["x"] } rfl (List.cons_ne_nil _ _) none none {} rfl rfl hmute
  obtain ⟨inner, hinner, hkind, henclosing, hscope⟩ : ∃ data ∈ w.graph.context? ⟨2, 0⟩,
      data.kind = .nameSpace ∧ data.parent.elim [] w.graph.scopePath = ["A", "B"] ∧
        data.scopeName.path = ["C"] := by decide +kernel
  obtain ⟨outer, houter, hkind', henclosing', hscope'⟩ : ∃ data ∈ w.graph.context? ⟨1, 0⟩,
      data.kind = .nameSpace ∧ data.parent.elim [] w.graph.scopePath = [] ∧
        data.scopeName.path = ["A", "B"] := by decide +kernel
  have hwhole : ⟨0, 0⟩ ∈ find ⟨0, 0⟩ ["A", "B", "C", "x"] := by decide +kernel
  have hpart : ⟨1, 0⟩ ∈ find ⟨0, 0⟩ ["A", "x"] := by decide +kernel
  refine ⟨by decide +kernel, hwhole, hpart, (hmeant _).mpr (.inr ?_), (hmeant _).mpr (.inr ?_)⟩
  · refine ⟨⟨2, 0⟩, by decide, inner, hinner, hkind, ["C"], by decide, by rw [hscope], ?_⟩
    rw [henclosing]
    exact hwhole
  · refine ⟨⟨1, 0⟩, by decide, outer, houter, hkind', ["A"], by decide, ?_, ?_⟩
    · rw [hscope']
      decide
    · rw [henclosing']
      exact hpart

end Workspace

end ScopeGraph
