/-
  File:      ScopeGraph/Proofs/SearchMemo.lean
  Subject:   No search spoils the memo.

  Every question comes to the memo through the walk from file to file only.
  So what this walk keeps of a memo, every question keeps (`Question.keeps`).
-/
import ScopeGraph.Proofs.Calls
import ScopeGraph.Proofs.Questions

namespace ScopeGraph

open Query

namespace Graph

variable {g : Graph} {P : HopMemo → Prop} (hP : ∀ s t, Keeps P (g.hopTowards s t))

include hP

/-! ## 1. From file to file -/

theorem keeps_importsTop (s t : TopId) : Keeps P (g.importsTop s t) :=
  (hP s t).bind fun _ => keeps_pure _

theorem keeps_traceFrom (t : TopId) (n : Nat) (visited : List TopId) (s : TopId) :
    Keeps P (g.traceFrom t n visited s) := by
  induction n generalizing visited s with
  | zero => exact keeps_pure none
  | succ n ih =>
    unfold traceFrom
    split
    · exact (yields_warn _).keeps.bind fun _ => keeps_pure none
    · refine (hP s t).bind fun hop => ?_
      cases hop with
      | absent complete => exact (yields_warn _).keeps.bind fun _ => keeps_pure none
      | via next =>
        dsimp only
        split
        · exact keeps_pure _
        · exact (ih _ next).bind fun _ => keeps_pure _

theorem keeps_importTrace (s t : TopId) : Keeps P (g.importTrace s t) := by
  refine (hP s t).bind fun hop => ?_
  cases hop with
  | absent complete => exact keeps_pure []
  | via next => exact (keeps_traceFrom hP t _ [] s).bind fun _ => keeps_pure _

theorem keeps_imports (c origin : ContextId) : Keeps P (g.imports c origin) := by
  unfold imports
  split
  · exact keeps_importsTop hP _ _
  · exact (yields_warn _).keeps.bind fun _ => keeps_pure _
  · exact keeps_pure _

/-! ## 2. In the symbol table -/

theorem keeps_fileSees (top other : TopId) (start : Position) (anywhere : Bool)
    (position : Option Position) : Keeps P (g.fileSees top other start anywhere position) := by
  unfold fileSees
  split
  · exact keeps_importsTop hP top other
  · exact keeps_pure _

/-- A file is answered with what a declaration stands for, if that passes the filter. -/
theorem yields_resolved (top : TopId) (position : Option Position) (filter : DeclFilter)
    (d : DeclId) :
    Yields P (fun es => ∀ e ∈ es, g.resolveAlias d = .ok e ∧
        ∃ found, g.declaration? e = some found ∧ filter.accepts found = true)
      (g.checkDeclaration top position filter d) := by
  have hnothing : ∀ {Q : DeclId → Prop}, Yields P (fun es => ∀ e ∈ es, Q e) (pure []) :=
    yields_pure fun e he => absurd he List.not_mem_nil
  refine yields_lift_bind ?_
  split
  · split
    · refine Yields.bind (keeps_fileSees hP _ _ _ _ _) fun b _ => ?_
      split
      · exact hnothing
      · refine yields_lift_bind ?_
        rw [Noted.value_ofExcept]
        cases hres : g.resolveAlias d with
        | error _ => exact hnothing
        | ok r =>
          dsimp only [Except.toOption]
          cases hfound : g.declaration? r with
          | none => exact hnothing
          | some found =>
            refine yields_pure fun e he => ?_
            split at he
            · next haccepts =>
              rw [List.mem_singleton.mp he]
              exact ⟨rfl, found, hfound, haccepts⟩
            · exact absurd he List.not_mem_nil
    · exact hnothing
  · exact hnothing

theorem keeps_checkDeclaration (top : TopId) (position : Option Position) (filter : DeclFilter)
    (d : DeclId) : Keeps P (g.checkDeclaration top position filter d) :=
  (yields_resolved hP top position filter d).keeps

theorem keeps_tableAliases (top : TopId) (position : Option Position) (key : Path) :
    Keeps P (g.tableAliases top position key) :=
  (keeps_gatherM (keeps_checkDeclaration hP top position {}) _).bind fun _ => keeps_pure _

theorem keeps_importExpansions {expand : Expansion} (he : ∀ t r s, Keeps P (expand t r s))
    (top : TopId) (position : Option Position) (offset : Nat) (name : Path) :
    Keeps P (g.importExpansions top position offset expand name) := by
  unfold importExpansions
  split
  · exact keeps_pure []
  · refine (keeps_tableAliases hP _ _ _).bind fun found => keeps_gatherM (fun a => ?_) found
    split
    · exact (yields_warn _).keeps.bind fun _ => keeps_pure []
    · exact he _ _ _

theorem keeps_aliasExpansions {expand : Expansion} (he : ∀ t r s, Keeps P (expand t r s))
    (top : TopId) (position : Option Position) (whole : Bool) (offset : Nat) (name : Path) :
    Keeps P (g.aliasExpansions top position whole offset expand name) := by
  unfold aliasExpansions
  generalize (if whole then offset else offset + 1) = bound
  split
  · exact keeps_pure none
  · refine (keeps_tableAliases hP _ _ _).bind fun found => ?_
    dsimp only
    split
    · exact keeps_pure none
    · refine (keeps_gatherM (fun a => ?_) _).bind fun _ => keeps_pure _
      split
      · exact (yields_warn _).keeps.bind fun _ => keeps_pure []
      · exact he _ _ _

theorem keeps_expandName {expand : Expansion} (he : ∀ t r s, Keeps P (expand t r s))
    (top : TopId) (position : Option Position) (whole : Bool) (offset : Nat) (name : Path) :
    Keeps P (g.expandName top position whole offset expand name) := by
  refine (keeps_importExpansions hP he _ _ _ _).bind fun imported => ?_
  refine (keeps_aliasExpansions hP he _ _ _ _ _).bind fun renamed => ?_
  cases renamed <;> exact keeps_pure _

omit hP in
/-- What every round keeps of the names the rounds keep, whenever they end. -/
theorem yields_rounds {top : TopId} {position : Option Position} {whole : Bool}
    {expand : Nat → Expansion} {I Q : List Path → Prop}
    (hdone : ∀ names, I names → Q names.eraseDups)
    (hround : ∀ offset names, I names → Yields P (fun more => I more.eraseDups)
      (gatherM (g.expandName top position whole offset (expand offset)) names))
    (n offset : Nat) {names : List Path} (hnames : I names) :
    Yields P Q (g.expandRounds top position whole expand n offset names) := by
  induction n generalizing offset names with
  | zero => exact yields_pure (hdone names hnames)
  | succ n ih =>
    unfold expandRounds
    split
    · exact yields_pure (hdone names hnames)
    · exact (hround offset names hnames).bind fun more hmore => ih (offset + 1) hmore

theorem keeps_expandRounds {expand : Nat → Expansion}
    (he : ∀ n t r s, Keeps P (expand n t r s)) (top : TopId) (position : Option Position)
    (whole : Bool) (n offset : Nat) (names : List Path) :
    Keeps P (g.expandRounds top position whole expand n offset names) :=
  yields_rounds (I := fun _ => True) (fun _ _ => trivial)
    (fun offset _ _ => keeps_gatherM (keeps_expandName hP (he offset) _ _ _ _) _) n offset trivial

theorem keeps_expandUnder (top : TopId) (whole : Bool) (n offset : Nat) (target : QualName)
    (rest : Path) (start : Position) :
    Keeps P (g.expandUnder top whole n offset target rest start) := by
  induction n generalizing offset target rest start with
  | zero => exact (yields_warn _).keeps.bind fun _ => keeps_pure _
  | succ n ih => exact keeps_expandRounds hP ih _ _ _ _ _ _

theorem keeps_expandNames (top : TopId) (position : Option Position) (whole : Bool)
    (names : List Path) : Keeps P (g.expandNames top position whole names) :=
  keeps_expandRounds hP (keeps_expandUnder hP top whole _) _ _ _ _ _ _

theorem keeps_declarationsInTable (filter : DeclFilter) (top : TopId) (names : List NameTrie)
    (position : Option Position) : Keeps P (g.declarationsInTable filter top names position) :=
  (keeps_expandNames hP _ _ _ _).bind fun paths => keeps_gatherM (fun _ =>
    (keeps_gatherM (keeps_checkDeclaration hP _ _ _) _).bind fun _ => keeps_pure _) paths

theorem keeps_checkContext (kind : ContextKind) (top : TopId) (position : Option Position)
    (c : ContextId) : Keeps P (g.checkContext kind top position c) := by
  unfold checkContext
  split
  · exact (yields_warn _).keeps.bind fun _ => keeps_pure []
  · split
    · exact keeps_pure []
    · split
      · exact (keeps_fileSees hP _ _ _ _ _).bind fun _ => keeps_pure _
      · exact keeps_pure []

theorem keeps_contextsInTable (kind : ContextKind) (top : TopId) (names : List NameTrie)
    (position : Option Position) : Keeps P (g.contextsInTable kind top names position) :=
  (keeps_expandNames hP _ _ _ _).bind fun paths => keeps_gatherM (fun _ =>
    keeps_gatherM (keeps_checkContext hP _ _ _) _) paths

omit hP

/-! ## 3. Along the way of a search -/

variable {α : Type} {q : Quest α} (hq : ∀ top names position, Keeps P (q.inTable top names position))

theorem keeps_searchImports {descent : Option (Descent α)}
    (hd : ∀ descend ∈ descent, ∀ c names position found, Keeps P (descend c names position found))
    (c : ContextId) (data : Context) (names : List NameTrie) (position : Option Position)
    (found : List α) : Keeps P (g.searchImports c data names position descent found) := by
  unfold searchImports
  dsimp only
  split
  · exact keeps_pure found
  · cases descent with
    | none => exact (yields_warn _).keeps.bind fun _ => keeps_pure found
    | some descend =>
      refine keeps_foldlM (fun found i => ?_) _ found
      unfold searchImport
      split
      · exact (yields_warn _).keeps.bind fun _ => keeps_pure found
      · split
        · exact keeps_pure found
        · exact hd descend rfl _ _ _ _

include hq

theorem keeps_searchLevel {descent : Option (Descent α)}
    (hd : ∀ descend ∈ descent, ∀ c names position found, Keeps P (descend c names position found))
    (c : ContextId) (names : List NameTrie) (position : Option Position) (found : List α) :
    Keeps P (g.searchLevel q descent c names position found) := by
  unfold searchLevel
  split
  · exact (yields_warn _).keeps.bind fun _ => keeps_pure _
  · split
    · exact (hq _ _ _).bind fun _ => keeps_pure _
    · refine (keeps_lift _).bind fun here => ?_
      dsimp only
      split
      · exact keeps_pure _
      · refine (keeps_lift _).bind fun names => ?_
        refine (keeps_searchImports hd _ _ _ _ _).bind fun found => ?_
        split
        · exact keeps_pure _
        · exact keeps_pure _

theorem keeps_searchImported (n : Nat) (c : ContextId) (names : List NameTrie)
    (position : Option Position) (found : List α) :
    Keeps P (g.searchImported q n c names position found) := by
  induction n generalizing c names position found with
  | zero =>
    exact (keeps_searchLevel hq (fun _ h => by cases h) _ _ _ _).bind fun _ => keeps_pure _
  | succ n ih =>
    refine (keeps_searchLevel hq (fun descend h => ?_) _ _ _ _).bind fun _ => keeps_pure _
    cases h
    exact ih

theorem keeps_searchUp (climbs : Bool) (position : Option Position) (cs : List ContextId)
    (names : List NameTrie) (found : List α) :
    Keeps P (g.searchUp q climbs position cs names found) := by
  have hd : ∀ n, ∀ descend ∈ g.descentAt q n, ∀ c names position found,
      Keeps P (descend c names position found) := by
    intro n descend h
    cases n with
    | zero => cases h
    | succ n =>
      cases h
      exact keeps_searchImported hq n
  induction cs generalizing names found with
  | nil => exact keeps_pure found
  | cons c above ih =>
    refine (keeps_searchLevel hq (hd _) _ _ _ _).bind fun level => ?_
    cases level with
    | done found => exact keeps_pure found
    | goOn data names found =>
      dsimp only
      split
      · exact ih _ _
      · exact keeps_pure found

theorem keeps_search [BEq α] (climbs : Bool) (c : ContextId) (name : QualName)
    (position : Option Position) : Keeps P (g.search q climbs c name position) := by
  unfold search
  split
  · exact (keeps_searchUp hq _ _ _ _ _).bind fun _ => keeps_pure _
  · exact (yields_warn _).keeps.bind fun _ => keeps_pure _

end Graph

/-- A question leaves the graph as it is. -/
theorem Question.graph_apply (q : Question) (w : Workspace) : (q.apply w).graph = w.graph := by
  cases q <;> rfl

/-- **A question keeps of the memo what the walk from file to file keeps**, and
    leaves the graph as it is. -/
theorem Question.keeps {P : HopMemo → Prop} (q : Question) {w : Workspace}
    (hP : ∀ s t, Keeps P (w.graph.hopTowards s t)) (hw : P w.memo) :
    P (q.apply w).memo ∧ (q.apply w).graph = w.graph := by
  cases q with
  | importsTop s t => exact ⟨(Graph.keeps_importsTop hP s t _ hw).2, rfl⟩
  | importTrace s t => exact ⟨(Graph.keeps_importTrace hP s t _ hw).2, rfl⟩
  | imports c origin => exact ⟨(Graph.keeps_imports hP c origin _ hw).2, rfl⟩
  | findDeclarations c name position type flags =>
    have h := Graph.keeps_search (g := w.graph)
      (q := w.graph.declarationQuest ⟨type, flags.onlyFunctions⟩)
      (Graph.keeps_declarationsInTable hP _) flags.climbs c name position
    exact ⟨(h _ hw).2, rfl⟩
  | findContexts c kind name position flags =>
    have h := Graph.keeps_search (g := w.graph) (q := w.graph.contextQuest kind)
      (Graph.keeps_contextsInTable hP kind) flags.climbs c name position
    exact ⟨(h _ hw).2, rfl⟩
  | findLocal c name position filter => exact ⟨hw, rfl⟩
  | resolveAlias d => exact ⟨hw, rfl⟩

end ScopeGraph
