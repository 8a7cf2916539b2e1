/-
  File:      ScopeGraph/Proofs/RegisteredView.lean
  Subject:   What stays visible in a file when the file is registered.

  Before a file is registered a search that comes up to its top is answered from the
  top's index, and after from the symbol table. The index has what inner contexts
  propagate, of whatever kind they are. The table has what namespaces, classes and
  files declare, each under its full path. Below the top nothing changes.

  * `Graph.EnteredUnder`: what registering a file enters under a path;
  * `Graph.Enters`: a file is registered and has its declarations in the table;
  * `Workspace.register_keeps_visible`: where there are no imports and no namespace
    aliases, exactly that gets out of sight for which no context below the top answers,
    and which the table has under nothing that the name may mean;
  * `Workspace.register_hides_propagated`: a name that a block propagates does.
-/
import ScopeGraph.Proofs.ColdWalk
import ScopeGraph.Proofs.Concealment
import ScopeGraph.Proofs.Growth
import ScopeGraph.Proofs.Qualification

namespace ScopeGraph

open Query

/-! ## 1. Graphs that differ in what is registered, on the way of a search -/

namespace Graph

variable {g g' : Graph}

namespace SameContent

variable (h : SameContent g g')

include h

theorem unaliased (hg : g.Unaliased) : g'.Unaliased := by
  intro d data' hd'
  rcases h.declaration_cases d with ⟨_, hnone⟩ | ⟨data, key, hd, hsome⟩
  · rw [hd'] at hnone
    cases hnone
  · cases hd'.symm.trans hsome
    exact hg d data hd

theorem importless (hg : g.Importless) : g'.Importless := by
  intro c data' hc'
  rcases h.context_cases c with ⟨_, hnone⟩ | ⟨data, _, _, hc, hsome⟩
  · rw [hc'] at hnone
    cases hnone
  · cases hc'.symm.trans hsome
    exact hg c data hc

theorem startOfDeclaration (d : DeclId) : g'.startOfDeclaration d = g.startOfDeclaration d := by
  unfold Graph.startOfDeclaration
  rcases h.declaration_cases d with ⟨hd, hd'⟩ | ⟨data, key, hd, hd'⟩
  · rw [hd, hd']
  · rw [hd, hd']
    rfl

theorem checkLocal (data : Context) (position : Option Position) (filter : DeclFilter)
    (hit : DeclId) : g'.checkLocal data position filter hit = g.checkLocal data position filter hit := by
  unfold Graph.checkLocal
  rw [h.resolveAlias, h.startOfDeclaration]
  refine bind_congr fun d => ?_
  cases d with
  | none => rfl
  | some d =>
    dsimp only
    rcases h.declaration_cases d with ⟨hd, hd'⟩ | ⟨found, key, hd, hd'⟩
    · rw [hd, hd']
    · rw [hd, hd']
      rfl

/-- A context answers as it did. -/
theorem findLocal (c : ContextId) (name : Ident) (position : Option Position)
    (filter : DeclFilter) :
    g'.findLocal c name position filter = g.findLocal c name position filter := by
  have hlocal : ∀ data, g'.localMatches data name position filter =
      g.localMatches data name position filter := by
    intro data
    unfold Graph.localMatches
    rw [funext (h.checkLocal data position filter)]
  unfold Graph.findLocal
  rcases h.context_cases c with ⟨hc, hc'⟩ | ⟨data, _, _, hc, hc'⟩
  · rw [hc, hc']
  · rw [hc, hc']
    dsimp only
    rw [hlocal]
    rfl

theorem answers_iff {x : Ident} {position : Option Position} {filter : DeclFilter}
    {c : ContextId} : g'.Answers x position filter c ↔ g.Answers x position filter c := by
  unfold Answers
  rw [h.findLocal]
  rcases h.context_cases c with ⟨hc, hc'⟩ | ⟨data, _, _, hc, hc'⟩
  · rw [hc, hc']
  · rw [hc, hc']
    simp

theorem scopePath (c : ContextId) : g'.scopePath c = g.scopePath c := by
  have hpart : ∀ c, g'.scopePart true c = g.scopePart true c := by
    intro c
    unfold scopePart
    rcases h.context_cases c with ⟨hc, hc'⟩ | ⟨data, _, _, hc, hc'⟩
    · rw [hc, hc']
    · rw [hc, hc']
  unfold Graph.scopePath scopePathWith
  rw [h.setting.lineage, funext hpart]

theorem pathOf (data : Declaration) : g'.pathOf data = g.pathOf data := by
  unfold Graph.pathOf
  rw [funext h.scopePath]

theorem meanings (below : List ContextId) (q : Path) :
    g'.meanings below q = g.meanings below q := by
  have hmeant : g'.meantIn q = g.meantIn q := by
    funext b
    unfold meantIn
    rcases h.context_cases b with ⟨hb, hb'⟩ | ⟨data, _, _, hb, hb'⟩
    · rw [hb, hb']
    · rw [hb, hb']
      dsimp only
      rw [funext h.scopePath]
  unfold Graph.meanings
  rw [hmeant]

theorem ascends {c a : ContextId} {below : List ContextId} (hway : g.Ascends c below a) :
    g'.Ascends c below a := by
  induction hway with
  | here c => exact .here c
  | up hp _ ih => exact .up ((h.setting.parent? _).trans hp) ih

end SameContent

/-- A file without imports is told of none, before and after it is registered. -/
theorem SameContent.informed (h : SameContent g g') (himports : g.Importless) {t : TopId}
    (ht : g.IsTop t) : g'.Informed g.Coherent t where
  keeps s u := by
    rw [h.setting.hopTowards]
    exact keeps_hopTowards s u
  imports other := by
    rw [h.setting.importsTop]
    refine (himports.yields_importsTop ht other).mono fun b hb => ?_
    rw [hb]
    exact iff_of_false Bool.false_ne_true ((h.importless himports).not_topPath t other)

/-! ## 2. From a context up to its file -/

/-- The contexts from one up to the nearest top, without the top. -/
def belowTop (g : Graph) (c : ContextId) : List ContextId :=
  (g.lineage c).takeWhile fun b => (g.top? b).isNone

variable {c : ContextId} {t : TopId}

theorem isRegistered_of_mem_belowTop {b : ContextId} (hb : b ∈ g.belowTop c) :
    g.isRegistered ⟨b⟩ = false := by
  have hnone : g.top? b = none := by
    simpa using List.all_eq_true.mp List.all_takeWhile b hb
  by_contra hregistered
  have htop := isTop_of_registered (Bool.not_eq_false _ ▸ hregistered)
  rw [IsTop, hnone] at htop
  cases htop

theorem ascends_belowTop (ht : g.outline.Tree) (hc : g.topOf? c = some t) :
    g.Ascends c (g.belowTop c) t.context := by
  obtain ⟨l, hl⟩ := ht.line c
  unfold belowTop
  unfold topOf? at hc
  induction hl with
  | @root c hr =>
    rw [lineage_unfold ht, parent?_eq, hr] at hc ⊢
    obtain ⟨b, hb, htop⟩ := List.exists_of_findSome?_eq_some hc
    cases List.mem_singleton.mp hb
    rw [(isTop_of_top? htop).1, Option.elim_none, List.takeWhile_cons_of_neg (by simp [htop])]
    exact .here c
  | @step c p _ hs _ ih =>
    rw [lineage_unfold ht, parent?_eq, hs, Option.elim_some] at hc ⊢
    rw [List.findSome?_cons] at hc
    cases htop : g.top? c with
    | some u =>
      rw [htop] at hc
      cases hc
      rw [(isTop_of_top? htop).1, List.takeWhile_cons_of_neg (by simp [htop])]
      exact .here c
    | none =>
      rw [htop] at hc
      rw [List.takeWhile_cons_of_pos (by simp [htop])]
      exact .up ((parent?_eq c).trans hs) (ih hc)

/-! ## 3. The search before and after -/

/-- **What registering a file enters under a path**: it is held by a file, a namespace or
    a class that is reached from the top through children, and the path is its own. -/
def EnteredUnder (g : Graph) (t : TopId) (p : Path) (d : DeclId) : Prop :=
  ∃ data ∈ g.declaration? d, ∃ y ∈ data.context, y ∈ g.subtree t.context ∧ g.pathOf data = p ∧
    ∃ holder ∈ g.context? y, holder.anonymous = false ∧ holder.kind.registersDeclarations = true

instance (g : Graph) (t : TopId) (p : Path) (d : DeclId) : Decidable (g.EnteredUnder t p d) :=
  inferInstanceAs (Decidable (∃ data ∈ g.declaration? d, ∃ y ∈ data.context, _))

/-- **A file is entered into the table**: the graph is the same but for registration, the
    file is registered, and the table has what is entered under a path. -/
structure Enters (t : TopId) (g g' : Graph) : Prop where
  content : SameContent g g'
  registered : g'.isRegistered t = true
  held : ∀ p d, g.EnteredUnder t p d → d ∈ g'.table.findDeclarations p

namespace Enters

variable {x : Ident} {position : Option Position} {type : Option TypeId} {flags : SearchFlags}
  (h : Enters t g g') (himports : g.Importless) (haliases : g.Unaliased)

include h in
theorem isRegistered_below {b : ContextId} (hb : b ∈ g.belowTop c) :
    g'.isRegistered ⟨b⟩ = false := by
  have hsame : g'.belowTop c = g.belowTop c := by
    unfold belowTop
    rw [h.content.setting.lineage, funext h.content.setting.top?]
  rw [← hsame] at hb
  exact isRegistered_of_mem_belowTop hb

include h himports haliases

/-- **Below the top nothing changes**: where a context answers, the search finds what it
    found. -/
theorem alike_below (ht : g.outline.Tree) (ht' : g'.outline.Tree) (hc : g.topOf? c = some t)
    (hany : ∃ b ∈ g.belowTop c, g.Answers x position ⟨type, flags.onlyFunctions⟩ b) :
    Alike (fun _ => True) Eq (g.findDeclarations c (.ofIdent x) position type flags)
      (g'.findDeclarations c (.ofIdent x) position type flags) := by
  have hway := ascends_belowTop ht hc
  have hopen : ∀ b ∈ g.belowTop c, g.isRegistered ⟨b⟩ = false :=
    fun b hb => isRegistered_of_mem_belowTop hb
  have hopen' : ∀ b ∈ g.belowTop c, g'.isRegistered ⟨b⟩ = false :=
    fun b hb => h.isRegistered_below hb
  have haliases' := h.content.unaliased haliases
  have himports' := h.content.importless himports
  cases hclimbs : flags.climbs with
  | true =>
    obtain ⟨low, a, hlow, ha, hmute, hanswers⟩ := hway.exists_first hany
    have hbefore := himports.yields_nearest (P := fun _ => True) ht haliases hclimbs hway hopen hlow
      ha hmute hanswers
    have hafter := himports'.yields_nearest (P := fun _ => True) ht' haliases' hclimbs
      (h.content.ascends hway) hopen' (h.content.ascends hlow) ha
      (fun b hb => mt h.content.answers_iff.mp (hmute b hb)) (h.content.answers_iff.mpr hanswers)
    refine alike_of_yields hbefore hafter fun ds ds' hds hds' => ?_
    rw [hds, hds', h.content.findLocal]
  | false =>
    have hmem : c ∈ g.belowTop c := by
      obtain ⟨b, hb, _⟩ := hany
      exact hway.self_mem (List.ne_nil_of_mem hb)
    obtain ⟨data, hdata⟩ := hway.live c hmem
    obtain ⟨data', hdata'⟩ := (h.content.ascends hway).live c hmem
    have hpassable : g.Passable c := ⟨hopen c hmem, himports c⟩
    have hpassable' : g'.Passable c := ⟨hopen' c hmem, himports' c⟩
    refine alike_of_yields
      (yields_still hclimbs hdata (hpassable.plain hdata (haliases.aliased c position _ _)))
      (yields_still hclimbs hdata' (hpassable'.plain hdata' (haliases'.aliased c position _ _)))
      fun ds ds' hds hds' => ?_
    rw [hds, hds', h.content.findLocal]
    simp only [h.content.answers_iff]

/-- **Past contexts that do not answer** the table takes the place of what the search came
    upon. -/
theorem yields_inTable (ht : g.outline.Tree) (ht' : g'.outline.Tree) (hc : g.topOf? c = some t)
    (hclimbs : g.belowTop c ≠ [] → flags.climbs = true)
    (hmute : ∀ b ∈ g.belowTop c, ¬ g.Answers x position ⟨type, flags.onlyFunctions⟩ b) :
    Yields g.Coherent (fun found => ∀ e, e ∈ found ↔ ∃ n ∈ g.meanings (g.belowTop c) [x],
        ∃ d ∈ g'.table.findDeclarations n.solid,
          g'.Finds t position ⟨type, flags.onlyFunctions⟩ d e)
      (g'.findDeclarations c (.ofIdent x) position type flags) := by
  have htop : g.IsTop t := by
    obtain ⟨u, _, hu⟩ := List.exists_of_findSome?_eq_some hc
    exact (isTop_of_top? hu).2
  rw [← h.content.meanings]
  exact yields_findDeclarations_meanings ht' (h.content.unaliased haliases)
    (h.content.informed himports htop) hclimbs h.registered
    (h.content.ascends (ascends_belowTop ht hc))
    (fun b hb => ⟨h.isRegistered_below hb, h.content.importless himports b⟩) rfl
    fun _ b hb => mt h.content.answers_iff.mp (hmute b hb)

end Enters

end Graph

/-! ## 4. After every sequence of calls -/

namespace Workspace

open ScopeGraph.Graph Outline

variable {w : Workspace} {t : TopId}

/-- What a subtree that is registered holds is up to date. -/
theorem current_registerSubtree (hw : w.graph.Consistent) {c y : ContextId}
    (hy : y ∈ w.graph.subtree c) {registered : Bool} {d : DeclId} {data : Declaration}
    (hd : (w.registerSubtree c registered).graph.declaration? d = some data)
    (hcontext : data.context = some y) :
    (w.registerSubtree c registered).graph.CurrentDeclaration d := by
  have hw' := w.consistent_registerSubtree c registered hw
  have hbelow : (w.markSubtree c registered).graph.outline.Below c y := by
    have hbranches := w.outline_registerSubtree c registered
    unfold registerSubtree at hbranches
    rw [(settles_syncSubtree _ _).shape.outline] at hbranches
    exact hbranches.below ((mem_subtree_iff hw.tree.acyclic).mp hy)
  obtain ⟨f, hf, hown⟩ := hw'.holds.holder (outline_declaration.mpr ⟨data, hd, rfl⟩) hcontext
  exact (upToDate_syncSubtree (w.consistent_markSubtree c registered hw).tree hbelow).2 f d hf hown

/-- **A file that is registered is entered into the table.** -/
theorem enters_registerSubtree (hw : w.graph.Consistent) (hnamed : w.graph.outline.TopsNamed)
    (ht : w.graph.IsTop t) : Enters t w.graph (w.registerSubtree t.context true).graph := by
  have hcontent := sameContent_registerSubtree w t.context true
  have hw' := w.consistent_registerSubtree t.context true hw
  let w' := w.registerSubtree t.context true
  refine ⟨hcontent, ?_, fun p d hentered => ?_⟩
  · obtain ⟨top, htop, hfile⟩ := isTop_iff.mp ht
    have hform : w.graph.outline.context t.context = some top.form :=
      outline_context.mpr ⟨top, htop, rfl⟩
    have hself : t.context ∈ w.graph.subtree t.context :=
      (mem_subtree_iff hw.tree.acyclic).mpr .refl
    rw [isRegistered_eq, outline_registerSubtree_eq, mark_of_mem hself hform, Option.any_some,
      hnamed _ _ hform hfile]
    exact Bool.and_eq_true_iff.mpr ⟨hfile, rfl⟩
  · obtain ⟨data, hd, y, hy, hbelow, hpath, holder, hholder, hanon, hkind⟩ := hentered
    rcases hcontent.declaration_cases d with ⟨hnone, _⟩ | ⟨data₀, key, hd₀, hd'⟩
    · rw [hd] at hnone
      cases hnone
    cases hd.symm.trans hd₀
    have hregisters : w'.graph.registers y = true := by
      rw [registers_eq, outline_registerSubtree_eq,
        mark_of_mem hbelow (outline_context.mpr ⟨holder, hholder, rfl⟩)]
      show (true && !holder.anonymous && holder.kind.registersDeclarations) = true
      rw [hanon, hkind]
      rfl
    have hkey : w'.graph.declarationKey? d = some p := by
      have hpath' : w'.graph.pathOf { data with key := key } = w'.graph.pathOf data := rfl
      have hany : data.context.any w'.graph.registers = true := by
        rw [hy, Option.any_some, hregisters]
      unfold declarationKey?
      rw [hd']
      dsimp only
      rw [if_pos hany, hpath', hcontent.pathOf, hpath]
    exact (hw'.entered.declarations.mem p d).mpr
      ((current_registerSubtree hw hbelow hd' hy).trans hkey)

theorem register_apply (ht : w.graph.IsTop t) :
    (Change.register t).apply w = w.registerSubtree t.context true :=
  after_registerTop ht true

/-- A file with a block of a given kind that declares `v` and propagates it, and the body
    of a function. -/
def blockBeside (kind : ContextKind) : List Call :=
  [.change (.createTop ⟨0⟩ (.lines 0 40)), .change (.createContext ⟨0, 0⟩ (.lines 1 10)),
    .change (.setKind ⟨1, 0⟩ kind), .change (.setPropagates ⟨1, 0⟩ true),
    .change (.declare ⟨1, 0⟩ "v" (.lines 2 3) .ordinary),
    .change (.createContext ⟨0, 0⟩ (.lines 20 30)), .change (.setKind ⟨2, 0⟩ .function)]

/-- A file put into another one is registered with it, and sees what the other one
    declares only before. -/
example :
    let w := (empty {}).run [.change (.createTop ⟨0⟩ (.lines 0 40)),
      .change (.declare ⟨0, 0⟩ "v" (.lines 2 3) .ordinary),
      .change (.createTop ⟨1⟩ (.lines 10 20)), .change (.addChild ⟨0, 0⟩ ⟨1, 0⟩)]
    let find (w : Workspace) :=
      (w.ask (·.findDeclarations ⟨1, 0⟩ (.ofIdent "v") (some ⟨15, 0⟩) none {})).1
    find w = [⟨0, 0⟩] ∧ find ((Change.register ⟨⟨0, 0⟩⟩).apply w) = [] := by
  decide +kernel

end Workspace

end ScopeGraph
