/-
  File:      ScopeGraph/Proofs/ContextSearch.lean
  Subject:   Which contexts a name stands for, seen from a registered file.

  The search for contexts comes to the table by the same way as the search for
  declarations, and what it sees there is cut off at the position in the same way,
  but for one thing: whether the position matters is decided by the parent of the
  context that is found, and not by the context itself (`SeesContext`).

  * `Graph.yields_findContexts`: the search from a registered file, for every memo
    that is coherent;
  * `Workspace.findContexts_exact`: the search after every sequence of calls;
  * `Workspace.own_context_unseen_in_circle`: imports that lead from a file back to
    itself do not show what is written in it after the position.
-/
import ScopeGraph.Proofs.TableSearch

namespace ScopeGraph

open Query

/-! ## 1. What a file sees -/

namespace Graph

variable {g : Graph}

/-- A file sees a context: in its own text one that starts at or before the position
    looked from, or one whose parent is a class; in another file every one, if imports
    lead from the file to that one. -/
def SeesContext (g : Graph) (top : TopId) (position : Option Position) (c : ContextId) : Prop :=
  ∃ data other, g.context? c = some data ∧ g.topOf? c = some other ∧
    (other = top ∧ ((∀ p, position = some p → data.range.start ≤ p) ∨
        ∃ parent holder, data.parent = some parent ∧ g.context? parent = some holder ∧
          holder.kind = .classBody) ∨
      other ≠ top ∧ g.TopPath top other)

/-- A context is there and of a kind. -/
def IsOfKind (g : Graph) (kind : ContextKind) (c : ContextId) : Prop :=
  ∃ data, g.context? c = some data ∧ data.kind = kind

instance (g : Graph) (kind : ContextKind) (c : ContextId) : Decidable (g.IsOfKind kind c) :=
  decidable_of_iff ((g.context? c).any (·.kind = kind) = true)
    (by simp [IsOfKind, Option.any_eq_true])

theorem parentIsClass_iff {data : Context} :
    data.parent.any g.isClass = true ↔ ∃ parent holder, data.parent = some parent ∧
      g.context? parent = some holder ∧ holder.kind = .classBody := by
  cases data.parent <;> simp [isClass_iff]

theorem seesContext_iff {top other : TopId} {position : Option Position} {c : ContextId}
    {data : Context} (hc : g.context? c = some data) (hother : g.topOf? c = some other) :
    g.SeesContext top position c ↔
      other = top ∧ ((∀ p, position = some p → data.range.start ≤ p) ∨
          data.parent.any g.isClass = true) ∨
        other ≠ top ∧ g.TopPath top other := by
  rw [parentIsClass_iff]
  constructor
  · intro hsees
    obtain ⟨data', other', hc', hother', h⟩ := hsees
    cases hc.symm.trans hc'
    cases hother.symm.trans hother'
    exact h
  · exact fun h => ⟨data, other, hc, hother, h⟩

section Coherent

variable (hdepth : g.tops.length ≤ g.limits.importDepth) {top : TopId} (htop : g.IsTop top)

include hdepth htop

/-- **A file is answered with a context of the table if it sees it.** -/
theorem yields_checkContext (kind : ContextKind) (position : Option Position) (c : ContextId) :
    Yields g.Coherent
      (fun cs => ∀ x, x ∈ cs ↔ x = c ∧ g.IsOfKind kind c ∧ g.SeesContext top position c)
      (g.checkContext kind top position c) := by
  unfold checkContext
  cases hc : g.context? c with
  | none =>
    refine (yields_warn _).bind fun _ _ => yields_nothing fun x hx => ?_
    obtain ⟨_, ⟨data, hdata, _⟩, _⟩ := hx
    cases hc.symm.trans hdata
  | some data =>
    have hkind : g.IsOfKind kind c ↔ data.kind = kind := by simp [IsOfKind, hc]
    dsimp only
    split
    · next hne =>
      refine yields_nothing fun x hx => ?_
      exact hne (hkind.mp hx.2.1)
    · next heq =>
      have heq : data.kind = kind := not_not.mp heq
      cases hother : g.topOf? c with
      | none =>
        refine yields_nothing fun x hx => ?_
        obtain ⟨_, _, _, other, _, hother', _⟩ := hx
        cases hother.symm.trans hother'
      | some other =>
        refine (yields_fileSees (informed_of_depth hdepth htop) _ _ _ _).bind fun b hb =>
          yields_pure fun x => ?_
        rw [← seesContext_iff hc hother] at hb
        cases b with
        | false => simp [← hb]
        | true => simp [hkind, heq, hb.mp rfl]

/-! ## 2. The search from a registered file -/

theorem yields_contextsInTable (hg : g.Unaliased) (kind : ContextKind) (names : List NameTrie)
    (position : Option Position) :
    Yields g.Coherent
      (fun cs => ∀ c, c ∈ cs ↔ ∃ p ∈ (names.flatMap (·.names)).map (·.path),
        c ∈ g.table.findContexts p ∧ g.IsOfKind kind c ∧ g.SeesContext top position c)
      (g.contextsInTable kind top names position) := by
  refine (yields_expandNames keeps_hopTowards hg top position _ _).bind fun paths hpaths => ?_
  have hpath : ∀ p ∈ paths, Yields g.Coherent
      (fun cs => ∀ c, c ∈ cs ↔ c ∈ g.table.findContexts p ∧ g.IsOfKind kind c ∧
        g.SeesContext top position c)
      (gatherM (g.checkContext kind top position) (g.table.findContexts p)) := by
    intro p _
    have hcheck := yields_gatherM (g.table.findContexts p) fun c _ =>
      yields_checkContext hdepth htop kind position c
    refine hcheck.mono fun cs hcs c => ?_
    rw [hcs]
    constructor
    · intro h
      obtain ⟨_, hmem, rfl, h⟩ := h
      exact ⟨hmem, h⟩
    · exact fun h => ⟨c, h.1, rfl, h.2⟩
  refine (yields_gatherM paths hpath).mono fun cs hcs c => ?_
  rw [hcs, hpaths]
  simp only [List.mem_eraseDups]

end Coherent

/-- **The search for the contexts of a name from a registered file** finds what stands
    under the name in the table, is of the kind asked for and is seen, each once. -/
theorem yields_findContexts (hdepth : g.tops.length ≤ g.limits.importDepth) {top : TopId}
    (hregistered : g.isRegistered top = true) (hg : g.Unaliased) (kind : ContextKind)
    {name : QualName} (hname : "" ∉ name.path) (position : Option Position) (flags : SearchFlags) :
    Yields g.Coherent
      (fun cs => cs.Nodup ∧ ∀ c, c ∈ cs ↔ c ∈ g.table.findContexts name.path ∧
        g.IsOfKind kind c ∧ g.SeesContext top position c)
      (g.findContexts top.context kind name position flags) := by
  have htop := isTop_of_registered hregistered
  have hnames : ([NameTrie.ofName name].flatMap (·.names)).map (·.path) = [name.path] := by
    simp [NameTrie.names_ofName hname]
  unfold findContexts
  rw [search_registered _ _ hregistered, map_eq_pure_bind]
  have htable := yields_contextsInTable hdepth htop hg kind [.ofName name] position
  refine htable.bind fun cs hcs => yields_pure ⟨nodup_eraseDups cs, fun c => ?_⟩
  rw [List.mem_eraseDups, hcs, hnames]
  simp only [List.mem_singleton, exists_eq_left]

/-- A context that a name stands for, seen from a registered file: one that belongs into
    the table under the name, of the kind asked for, that the file sees. -/
structure NamesContext (g : Graph) (top : TopId) (kind : ContextKind) (name : Path)
    (position : Option Position) (c : ContextId) : Prop where
  entered : g.ScopedUnder name c
  kind : g.IsOfKind kind c
  sees : g.SeesContext top position c

end Graph

/-! ## 3. After every sequence of calls -/

namespace Workspace

/-- Two registered files that import each other. Both have a namespace `N`, the first one
    far down in its text. In front of it the first file has a class `C` with a class `D`
    in it. -/
def sharedNamespace : List Call :=
  [.change (.createTop ⟨0⟩ (.lines 0 90)), .change (.createTop ⟨1⟩ (.lines 0 90)),
    .change (.addImport ⟨0, 0⟩ ⟨1, 0⟩ none), .change (.addImport ⟨1, 0⟩ ⟨0, 0⟩ none),
    .change (.createContext ⟨0, 0⟩ (.lines 20 30)), .change (.setKind ⟨2, 0⟩ .nameSpace),
    .change (.setScopeName ⟨2, 0⟩ { path := ["N"] }),
    .change (.createContext ⟨1, 0⟩ (.lines 40 50)), .change (.setKind ⟨3, 0⟩ .nameSpace),
    .change (.setScopeName ⟨3, 0⟩ { path := ["N"] }),
    .change (.createContext ⟨0, 0⟩ (.lines 1 10)), .change (.setKind ⟨4, 0⟩ .classBody),
    .change (.setScopeName ⟨4, 0⟩ { path := ["C"] }),
    .change (.createContext ⟨4, 0⟩ (.lines 7 9)), .change (.setKind ⟨5, 0⟩ .classBody),
    .change (.setScopeName ⟨5, 0⟩ { path := ["D"] }),
    .change (.register ⟨⟨0, 0⟩⟩), .change (.register ⟨⟨1, 0⟩⟩)]

/-- **A registered file finds under a name the contexts that the name stands for**, each
    once, as long as no namespace alias is there and there are not more live tops than the
    walk from file to file is deep. -/
theorem findContexts_exact (limits : Limits) (calls : List Call)
    (hfrees : (empty limits).FewFrees calls) (hnest : (empty limits).NestsNoTop calls)
    (hplain : ((empty limits).run calls).graph.Unaliased)
    (hdepth : ((empty limits).run calls).graph.tops.length ≤
      ((empty limits).run calls).graph.limits.importDepth)
    (top : TopId) (hregistered : ((empty limits).run calls).graph.isRegistered top = true)
    (kind : ContextKind) (name : QualName) (hname : "" ∉ name.path) (position : Option Position)
    (flags : SearchFlags) :
    let w := (empty limits).run calls
    let found := (w.ask (·.findContexts top.context kind name position flags)).1
    found.Nodup ∧ ∀ c, c ∈ found ↔ w.graph.NamesContext top kind name.path position c := by
  intro w found
  have hcoherent := (faithful_run hfrees).coherent
  obtain ⟨hnodup, hfound⟩ :=
    (Graph.yields_findContexts hdepth hregistered hplain kind hname position flags _ hcoherent).1
  refine ⟨hnodup, fun c => (hfound c).trans ?_⟩
  rw [(settled_run hfrees hnest).orderly.mem_findContexts]
  exact ⟨fun h => ⟨h.1, h.2.1, h.2.2⟩, fun h => ⟨h.entered, h.kind, h.sees⟩⟩

/-- In the sixth line `N` stands for the namespace of the other file and not for that of
    the file itself, which comes later; the class `D` comes later too, but it is in a
    class. -/
theorem findContexts_exact_mutual :
    let w := (empty { importDepth := 2 }).run sharedNamespace
    let names := w.graph.NamesContext ⟨⟨0, 0⟩⟩
    (w.ask (·.findContexts ⟨0, 0⟩ .nameSpace { path := ["N"] } (some ⟨5, 0⟩) {})).1 = [⟨3, 0⟩] ∧
      names .nameSpace ["N"] (some ⟨5, 0⟩) ⟨3, 0⟩ ∧ ¬ names .nameSpace ["N"] (some ⟨5, 0⟩) ⟨2, 0⟩ ∧
      names .classBody ["C", "D"] (some ⟨5, 0⟩) ⟨5, 0⟩ := by
  have hexact := findContexts_exact { importDepth := 2 } sharedNamespace
    (fewFrees_of_length (by decide)) (by decide +kernel) (by decide +kernel) (by decide +kernel)
    ⟨⟨0, 0⟩⟩ (by decide +kernel)
  have hspace := (hexact .nameSpace { path := ["N"] } (by decide) (some ⟨5, 0⟩) {}).2
  have hclass := (hexact .classBody { path := ["C", "D"] } (by decide) (some ⟨5, 0⟩) {}).2
  refine ⟨by decide +kernel, (hspace _).mp (by decide +kernel), fun h => ?_,
    (hclass _).mp (by decide +kernel)⟩
  exact absurd ((hspace _).mpr h) (by decide +kernel)

/-- The namespace `N` of the first file is registered, has the name and the kind asked for,
    and imports lead from the file through the other one back to the file it is in. It is
    not found in the sixth line: in its own text a file sees up to the position only. -/
theorem own_context_unseen_in_circle :
    let w := (empty { importDepth := 2 }).run sharedNamespace
    (empty { importDepth := 2 }).NestsNoTop sharedNamespace ∧ w.graph.Unaliased ∧
      w.graph.tops.length ≤ w.graph.limits.importDepth ∧
      w.graph.isRegistered ⟨⟨0, 0⟩⟩ = true ∧ w.graph.ScopedUnder ["N"] ⟨2, 0⟩ ∧
      w.graph.IsOfKind .nameSpace ⟨2, 0⟩ ∧
      (∃ other, w.graph.topOf? ⟨2, 0⟩ = some other ∧ w.graph.TopPath ⟨⟨0, 0⟩⟩ other) ∧
      ⟨2, 0⟩ ∉ (w.ask (·.findContexts ⟨0, 0⟩ .nameSpace { path := ["N"] } (some ⟨5, 0⟩) {})).1 := by
  intro w
  have hfrees : (empty { importDepth := 2 }).FewFrees sharedNamespace :=
    fewFrees_of_length (by decide)
  have hcoherent := (faithful_run hfrees).coherent
  have hdepth : w.graph.tops.length ≤ w.graph.limits.importDepth := by decide +kernel
  have htop : w.graph.IsTop ⟨⟨0, 0⟩⟩ := by decide +kernel
  have hcircle : w.graph.TopPath ⟨⟨0, 0⟩⟩ ⟨⟨0, 0⟩⟩ :=
    (Graph.yields_importsTop hdepth htop _ _ hcoherent).1.mp (by decide +kernel)
  have hentered : w.graph.ScopedUnder ["N"] ⟨2, 0⟩ :=
    Graph.contextKey?_eq_some.mp (by decide +kernel)
  exact ⟨by decide +kernel, by decide +kernel, hdepth, by decide +kernel, hentered,
    by decide +kernel, ⟨_, by decide +kernel, hcircle⟩, by decide +kernel⟩

end Workspace

end ScopeGraph
