/-
  File:      ScopeGraph/Proofs/Reachability.lean
  Subject:   Imports and the answers about them, in every state that calls lead to.

  * `imports_mirrored`: both ends of an import are there and list each other once;
  * `remembered_hop_exact`: what the memo says of live tops is so;
  * `importsTop_iff_path`: a file imports another exactly if imports lead from
    the one to the other, whatever the memo holds;
  * `imports_iff_path`: so does a context of any kind, and this is found by a walk
    against the imports.
-/
import ScopeGraph.Proofs.Runs

namespace ScopeGraph

namespace Workspace

/-- **Imports are known at both ends in every state.** A live context imports another one
    exactly if the other one is there and lists it as an importer. Each lists the other
    once, both are live, and none imports itself. -/
theorem imports_mirrored (limits : Limits) (calls : List Call)
    (hfrees : (empty limits).FewFrees calls) :
    let g := ((empty limits).run calls).graph
    (∀ a b, g.Imports a b ↔ g.ImportedBy b a) ∧
      (∀ a data, g.context? a = some data →
        (data.imports.map (·.context)).Nodup ∧ data.importers.Nodup) ∧
      ∀ a b, g.Imports a b → g.hasContext a = true ∧ g.hasContext b = true ∧ a ≠ b := by
  intro g
  have hmirror : g.Mirrored := (faithful_run hfrees).linked.mirrored
  refine ⟨hmirror.mirror, fun a data hdata => ?_, fun a b himports => ?_⟩
  · exact ⟨hmirror.imports_nodup a data hdata, hmirror.importers_nodup a data hdata⟩
  · obtain ⟨bdata, hb, _⟩ := (hmirror.mirror a b).mp himports
    obtain ⟨adata, ha, _⟩ := id himports
    refine ⟨Option.isSome_of_eq_some ha, Option.isSome_of_eq_some hb, ?_⟩
    rintro rfl
    exact hmirror.irrefl a himports

/-- Three files and a context in the first one. An import is written twice, one of a file
    itself is refused, one is taken out, and in the end the second file is deleted. -/
def importEdits : List Call :=
  [.change (.createTop ⟨0⟩ {}), .change (.createTop ⟨1⟩ {}), .change (.createTop ⟨2⟩ {}),
    .change (.createContext ⟨0, 0⟩ {}), .change (.addImport ⟨0, 0⟩ ⟨1, 0⟩ none),
    .change (.addImport ⟨0, 0⟩ ⟨1, 0⟩ (some ⟨1, 0⟩)), .change (.addImport ⟨2, 0⟩ ⟨2, 0⟩ none),
    .change (.addImport ⟨1, 0⟩ ⟨2, 0⟩ none), .change (.addImport ⟨2, 0⟩ ⟨3, 0⟩ none),
    .change (.addImport ⟨2, 0⟩ ⟨0, 0⟩ none), .change (.removeImport ⟨2, 0⟩ ⟨0, 0⟩),
    .change (.deleteContext ⟨1, 0⟩)]

/-- The import of the context stays and is known at both ends, and of the second file
    nothing is left at either end. -/
theorem imports_mirrored_edits :
    let g := ((empty {}).run importEdits).graph
    g.Imports ⟨2, 0⟩ ⟨3, 0⟩ ∧ g.ImportedBy ⟨3, 0⟩ ⟨2, 0⟩ ∧
      ¬ g.Imports ⟨0, 0⟩ ⟨1, 0⟩ ∧ ¬ g.ImportedBy ⟨2, 0⟩ ⟨1, 0⟩ := by
  intro g
  obtain ⟨hmirror, _, hlive⟩ := imports_mirrored {} importEdits (fewFrees_of_length (by decide))
  have hstays : g.Imports ⟨2, 0⟩ ⟨3, 0⟩ := ⟨_, rfl, by decide⟩
  have hgone : g.hasContext ⟨1, 0⟩ ≠ true := by decide
  refine ⟨hstays, (hmirror _ _).mp hstays, fun h => ?_, fun h => ?_⟩
  · exact hgone (hlive _ _ h).2.1
  · exact hgone (hlive _ _ ((hmirror _ _).mpr h)).1

/-- Three files of which each imports the next. It is asked for a way back from
    the first to itself before the circle is closed, and for one from the second
    to the first after. -/
def circle : List Call :=
  let file (i : Nat) : TopId := ⟨⟨i, 0⟩⟩
  [.change (.createTop ⟨0⟩ {}), .change (.createTop ⟨1⟩ {}), .change (.createTop ⟨2⟩ {}),
    .change (.addImport ⟨0, 0⟩ ⟨1, 0⟩ none), .change (.addImport ⟨1, 0⟩ ⟨2, 0⟩ none),
    .question (.importsTop (file 0) (file 0)),
    .change (.addImport ⟨2, 0⟩ ⟨0, 0⟩ none), .question (.importsTop (file 1) (file 0))]

/-- **The memo is coherent in every state.** A remembered hop from a live top
    is a live top that it imports, and the target or on a way to it; where it is
    remembered that there is no way, there is none. -/
theorem remembered_hop_exact (limits : Limits) (calls : List Call)
    (hfrees : (empty limits).FewFrees calls) (s t : TopId)
    (hs : ((empty limits).run calls).graph.IsTop s) :
    let w := (empty limits).run calls
    (∀ next, w.memo.find? s t = some (some next) →
      w.graph.Imports s.context next.context ∧ w.graph.IsTop next ∧
        (next = t ∨ w.graph.TopPath next t)) ∧
    (w.memo.find? s t = some none → ¬ w.graph.TopPath s t) := by
  have htruth := (faithful_run hfrees).linked.truthful
  constructor
  · intro next hfind
    obtain ⟨hedge, hnext⟩ := htruth _ (Graph.mem_of_find? hfind) hs
    exact ⟨hedge.imports, hedge.target, hnext⟩
  · intro hfind
    exact htruth _ (Graph.mem_of_find? hfind) hs

/-- Before the circle is closed it is remembered that there is no way back, and
    after it a hop. -/
theorem remembered_hop_exact_circle :
    let before := (empty { importDepth := 3 }).run (circle.take 6)
    let after := (empty { importDepth := 3 }).run circle
    (before.memo.find? ⟨⟨0, 0⟩⟩ ⟨⟨0, 0⟩⟩ = some none ∧ ¬ before.graph.TopPath ⟨⟨0, 0⟩⟩ ⟨⟨0, 0⟩⟩) ∧
      after.memo.find? ⟨⟨1, 0⟩⟩ ⟨⟨0, 0⟩⟩ = some (some ⟨⟨2, 0⟩⟩) ∧
      after.graph.Imports ⟨1, 0⟩ ⟨2, 0⟩ ∧ after.graph.IsTop ⟨⟨2, 0⟩⟩ ∧
      ((⟨⟨2, 0⟩⟩ : TopId) = ⟨⟨0, 0⟩⟩ ∨ after.graph.TopPath ⟨⟨2, 0⟩⟩ ⟨⟨0, 0⟩⟩) := by
  have hbefore := remembered_hop_exact { importDepth := 3 } (circle.take 6)
    (fewFrees_of_length (by decide)) ⟨⟨0, 0⟩⟩ ⟨⟨0, 0⟩⟩ (by decide)
  have hafter := remembered_hop_exact { importDepth := 3 } circle
    (fewFrees_of_length (by decide)) ⟨⟨1, 0⟩⟩ ⟨⟨0, 0⟩⟩ (by decide)
  exact ⟨⟨by decide, hbefore.2 (by decide)⟩, by decide, hafter.1 ⟨⟨2, 0⟩⟩ (by decide)⟩

/-- **Reachability is exact, whatever the memo holds**, as long as there are not
    more live tops than the walk is deep: a file imports a target exactly if
    there is a path of imports, of one import at least and through live tops,
    from the one to the other. -/
theorem importsTop_iff_path (limits : Limits) (calls : List Call)
    (hfrees : (empty limits).FewFrees calls)
    (hdepth : ((empty limits).run calls).graph.tops.length ≤
      ((empty limits).run calls).graph.limits.importDepth)
    (s t : TopId) (hs : ((empty limits).run calls).graph.IsTop s) :
    let w := (empty limits).run calls
    (w.ask (·.importsTop s t)).1 = true ↔ w.graph.TopPath s t :=
  (Graph.yields_importsTop hdepth hs t _ (faithful_run hfrees).coherent).1

/-- In the closed circle a file imports itself, and a walk of depth three finds
    it. -/
theorem importsTop_iff_path_circle :
    let w := (empty { importDepth := 3 }).run circle
    w.graph.tops.length ≤ w.graph.limits.importDepth ∧ w.graph.IsTop ⟨⟨0, 0⟩⟩ ∧
      (w.ask (·.importsTop ⟨⟨0, 0⟩⟩ ⟨⟨0, 0⟩⟩)).1 = true ∧
      w.graph.TopPath ⟨⟨0, 0⟩⟩ ⟨⟨0, 0⟩⟩ := by
  have hexact := importsTop_iff_path { importDepth := 3 } circle (fewFrees_of_length (by decide))
    (by decide) ⟨⟨0, 0⟩⟩ ⟨⟨0, 0⟩⟩ (by decide)
  exact ⟨by decide, by decide, by decide, hexact.mp (by decide)⟩

/-- **The walk against the imports decides whether imports lead forwards.** Of contexts of
    any kind that are not both live tops, the first imports the second exactly if they are
    the same or a path of imports leads from the first to the second. -/
theorem imports_iff_path (limits : Limits) (calls : List Call) (c origin : ContextId)
    (hpair : ¬ (((empty limits).run calls).graph.IsTop ⟨c⟩ ∧
      ((empty limits).run calls).graph.IsTop ⟨origin⟩)) :
    let w := (empty limits).run calls
    (w.ask (·.imports c origin)).1 = true ↔
      c = origin ∨ Relation.TransGen w.graph.Imports c origin := by
  intro w
  have hmirror : w.graph.Mirrored := (wired_run (wired_empty limits) calls).mirrored
  have hanswer : (w.ask (·.imports c origin)).1 = decide (c ∈ w.graph.importersOf origin) :=
    Graph.answer_imports hpair w.memo
  rw [hanswer, decide_eq_true_iff]
  exact hmirror.mem_importersOf_iff

/-- Two files with a context in each. The context of the first one imports that of the
    second, that one imports its own file, and the file imports the context of the first. -/
def innerCircle : List Call :=
  [.change (.createTop ⟨0⟩ {}), .change (.createTop ⟨1⟩ {}), .change (.createContext ⟨0, 0⟩ {}),
    .change (.createContext ⟨1, 0⟩ {}), .change (.addImport ⟨2, 0⟩ ⟨3, 0⟩ none),
    .change (.addImport ⟨3, 0⟩ ⟨1, 0⟩ none), .change (.addImport ⟨1, 0⟩ ⟨2, 0⟩ none)]

/-- From the second file imports lead through the context of the first to its own context,
    and from the first file they do not. -/
theorem imports_iff_path_circle :
    let w := (empty {}).run innerCircle
    (w.ask (·.imports ⟨1, 0⟩ ⟨3, 0⟩)).1 = true ∧
      Relation.TransGen w.graph.Imports ⟨1, 0⟩ ⟨3, 0⟩ ∧
      (w.ask (·.imports ⟨0, 0⟩ ⟨3, 0⟩)).1 = false ∧
      ¬ Relation.TransGen w.graph.Imports ⟨0, 0⟩ ⟨3, 0⟩ := by
  intro w
  have hsecond := imports_iff_path {} innerCircle ⟨1, 0⟩ ⟨3, 0⟩ (by decide)
  have hfirst := imports_iff_path {} innerCircle ⟨0, 0⟩ ⟨3, 0⟩ (by decide)
  have hyes : (w.ask (·.imports ⟨1, 0⟩ ⟨3, 0⟩)).1 = true := by decide
  have hno : (w.ask (·.imports ⟨0, 0⟩ ⟨3, 0⟩)).1 = false := by decide
  refine ⟨hyes, (hsecond.mp hyes).resolve_left (by decide), hno, fun hpath => ?_⟩
  exact absurd (hfirst.mpr (.inr hpath)) (by rw [hno]; decide)

end Workspace

end ScopeGraph
