/-
  File:      ScopeGraph/Proofs/SearchTermination.lean
  Subject:   Searches end, although no context is marked as seen.

  A search calls itself for what a context imports and for its parent. Imports run in
  circles, contexts get other parents, and a parent may be gone. What ends the calls
  is that each import counts towards a limit and forbids going on in a parent, and that
  chains of parents end (`Graph.rank`).

  `Graph.Finishes` is the search as it calls itself, with nothing to bound it from
  outside: the count of imports only grows, and parents are gone to while there are any.

  * `Graph.Invokes`: which calls a call makes; `Graph.rank_lt_of_invokes`: each of
    them has fewer calls left below it;
  * `Graph.Finishes.unique`: a call finishes in one way only;
  * `Graph.finishes_searchImported`, `Graph.finishes_searchUp`: calls finish;
  * `Workspace.searches_end`: so both searches do after every sequence of calls, with
    what they answer.
-/
import ScopeGraph.Proofs.AskedNames

namespace ScopeGraph

open Query

/-! ## 1. Calls -/

/-- A call of a search in one context. -/
structure SearchCall (α : Type) where
  context : ContextId
  names : List NameTrie
  position : Option Position
  /-- what was found before -/
  found : List α
  /-- whether the call may go on in the parent -/
  climbs : Bool
  /-- how many imports were gone through -/
  depth : Nat

namespace SearchCall

variable {α : Type}

/-- The first call of a search. -/
def start (c : ContextId) (name : QualName) (position : Option Position) (climbs : Bool) :
    SearchCall α :=
  { context := c, names := [.ofName name], position, found := [], climbs, depth := 0 }

/-- The call for an imported context: one import deeper, and it does not climb. -/
def into (call : SearchCall α) (c : ContextId) (names : List NameTrie)
    (position : Option Position) (found : List α) : SearchCall α :=
  { context := c, names, position, found, climbs := false, depth := call.depth + 1 }

/-- The call for the parent. -/
def upTo (call : SearchCall α) (p : ContextId) (names : List NameTrie) (found : List α) :
    SearchCall α :=
  { call with context := p, names, found }

end SearchCall

namespace Graph

variable {α : Type}

/-- **Which calls a call makes**: for what its context imports, as long as imports do not
    nest too deep, and for the parent, if it may climb; whatever names it passes on. -/
inductive Invokes (g : Graph) (call : SearchCall α) : SearchCall α → Prop
  | imported {data : Context} {i : Import} {names : List NameTrie} {position : Option Position}
      {found : List α} (hdepth : call.depth < g.limits.importDepth)
      (hdata : g.context? call.context = some data) (hi : i ∈ data.imports) :
      Invokes g call (call.into i.context names position found)
  | parent {p : ContextId} {names : List NameTrie} {found : List α} (hclimbs : call.climbs = true)
      (hp : g.parent? call.context = some p) : Invokes g call (call.upTo p names found)

/-- How many calls may still be made one below the other. -/
def rank (g : Graph) (call : SearchCall α) : Nat :=
  (if call.climbs then g.depth call.context else 0) + (g.limits.importDepth - call.depth)

variable {g : Graph} {call call' : SearchCall α}

theorem rank_into (g : Graph) (call : SearchCall α) (c : ContextId) (names : List NameTrie)
    (position : Option Position) (found : List α) :
    g.rank (call.into c names position found) = g.limits.importDepth - (call.depth + 1) :=
  Nat.zero_add _

/-- **Each call that a call makes has fewer calls left below it.** -/
theorem rank_lt_of_invokes (ht : g.outline.Tree) (h : g.Invokes call call') :
    g.rank call' < g.rank call := by
  cases h with
  | imported hdepth _ _ =>
    rw [rank_into]
    unfold rank
    omega
  | parent hclimbs hp =>
    have hup := depth_unfold ht call.context
    rw [hp, Option.elim_some] at hup
    simp only [rank, SearchCall.upTo, hclimbs, if_true]
    omega

theorem wellFounded_invokes (ht : g.outline.Tree) :
    WellFounded fun callee caller : SearchCall α => g.Invokes caller callee :=
  Subrelation.wf (fun h => rank_lt_of_invokes ht h) (measure g.rank).wf

/-- Calls one below the other are no more than the first one has left. -/
theorem length_le_rank (ht : g.outline.Tree) {stack : List (SearchCall α)}
    (h : (call :: stack).IsChain g.Invokes) : stack.length ≤ g.rank call := by
  induction stack generalizing call with
  | nil => exact Nat.zero_le _
  | cons next rest ih =>
    cases h with
    | cons_cons hnext hrest =>
      have hlt := rank_lt_of_invokes ht hnext
      have hle := ih hrest
      rw [List.length_cons]
      omega

/-- **Imports count towards the limit, behind an import there is no climbing, and before
    the first one calls are for what is above the first context.** -/
theorem invokes_invariant (ht : g.outline.Tree) {c : ContextId} {first : SearchCall α}
    (hcontext : first.context = c) (hdepth : first.depth = 0)
    (h : Relation.ReflTransGen g.Invokes first call) :
    call.depth ≤ g.limits.importDepth ∧ (0 < call.depth → call.climbs = false) ∧
      (call.depth = 0 → call.context ∈ g.lineage c) := by
  induction h with
  | refl =>
    refine ⟨by omega, fun h => by omega, fun _ => ?_⟩
    rw [hcontext, lineage_unfold ht]
    exact List.mem_cons_self
  | tail _ hstep ih =>
    obtain ⟨hbound, hflat, hline⟩ := ih
    cases hstep with
    | imported hlt _ _ =>
      refine ⟨hlt, fun _ => rfl, fun hzero => ?_⟩
      simp only [SearchCall.into] at hzero
      omega
    | @parent p _ _ hclimbs hp =>
      refine ⟨hbound, fun hpos => ?_, fun hzero => ?_⟩
      · rw [hflat hpos] at hclimbs
        cases hclimbs
      · have hmem := (isAtOrAbove_iff ht _ _).mp (decide_eq_true (hline hzero))
        exact of_decide_eq_true ((isAtOrAbove_iff ht _ _).mpr (hmem.tail hp))

/-! ## 2. The search -/

/-- What a call finds in its context and in what the context imports, with what becomes of
    imported contexts. -/
def levelOf (g : Graph) (q : Quest α) (call : SearchCall α) (descend : Descent α) :
    Query (Level α) :=
  g.searchLevel q (if call.depth < g.limits.importDepth then some descend else none) call.context
    call.names call.position call.found

/-- The call that follows a level: for the parent, if the search is not over, may climb and
    there is a parent. -/
def nextCall (g : Graph) (call : SearchCall α) : Level α → Option (SearchCall α)
  | .done _ => none
  | .goOn data names found =>
    if call.climbs then
      data.parent.map fun p => call.upTo p (g.upwards data (g.lineage p) names) found
    else none

/-- **A call finishes** with answers, a memo and warnings: in its context, or with what the
    call for the parent finishes with. What it gets from imported contexts is what the calls
    for them finish with. -/
inductive Finishes (g : Graph) (q : Quest α) :
    SearchCall α → HopMemo → Noted (List α × HopMemo) → Prop
  | here {call : SearchCall α} {m : HopMemo} {descend : Descent α}
      (hdescend : ∀ c names position found m',
        g.Invokes call (call.into c names position found) →
        Finishes g q (call.into c names position found) m' (descend c names position found m'))
      (hnext : g.nextCall call ((g.levelOf q call descend).answer m) = none) :
      Finishes g q call m
        ⟨(((g.levelOf q call descend).answer m).found, (g.levelOf q call descend).memoAfter m),
          (g.levelOf q call descend).warningsOf m⟩
  | above {call next : SearchCall α} {m : HopMemo} {descend : Descent α}
      {result : Noted (List α × HopMemo)}
      (hdescend : ∀ c names position found m',
        g.Invokes call (call.into c names position found) →
        Finishes g q (call.into c names position found) m' (descend c names position found m'))
      (hnext : g.nextCall call ((g.levelOf q call descend).answer m) = some next)
      (hup : Finishes g q next ((g.levelOf q call descend).memoAfter m) result) :
      Finishes g q call m
        ⟨result.value, (g.levelOf q call descend).warningsOf m ++ result.warnings⟩

variable {q : Quest α}

/-- What a context imports is all that a level asks for. -/
theorem searchImports_congr {descend descend' : Descent α} {c : ContextId} {data : Context}
    (h : ∀ i ∈ data.imports, descend i.context = descend' i.context) (names : List NameTrie)
    (position : Option Position) (found : List α) :
    g.searchImports c data names position (some descend) found =
      g.searchImports c data names position (some descend') found := by
  have hfold : ∀ l : List Import, (∀ i ∈ l, i ∈ data.imports) → ∀ found,
      l.foldlM (g.searchImport c (names.filter (!·.rooted)) position descend) found =
        l.foldlM (g.searchImport c (names.filter (!·.rooted)) position descend') found := by
    intro l
    induction l with
    | nil => exact fun _ _ => rfl
    | cons i rest ih =>
      intro hl found
      obtain ⟨hi, hrest⟩ := List.forall_mem_cons.mp hl
      rw [List.foldlM_cons, List.foldlM_cons]
      unfold searchImport
      rw [h i hi]
      exact bind_congr fun found => ih hrest found
  unfold searchImports
  dsimp only
  split
  · rfl
  · exact hfold _ (fun i hi => List.mem_reverse.mp hi) found

theorem levelOf_congr {descend descend' : Descent α}
    (h : ∀ c names position found, g.Invokes call (call.into c names position found) →
      descend c names position found = descend' c names position found) :
    g.levelOf q call descend = g.levelOf q call descend' := by
  unfold levelOf
  split
  · next hdepth =>
    unfold searchLevel
    cases hdata : g.context? call.context with
    | none => rfl
    | some data =>
      have himports : ∀ i ∈ data.imports, descend i.context = descend' i.context := by
        intro i hi
        funext names position found
        exact h _ _ _ _ (.imported hdepth hdata hi)
      simp only [searchImports_congr himports]
  · rfl

/-- **Where a call finishes**: in its context, or above it. -/
theorem Finishes.inv {m : HopMemo} {result : Noted (List α × HopMemo)}
    (h : g.Finishes q call m result) : ∃ descend : Descent α,
      (∀ c names position found m', g.Invokes call (call.into c names position found) →
        g.Finishes q (call.into c names position found) m' (descend c names position found m')) ∧
      (g.nextCall call ((g.levelOf q call descend).answer m) = none ∧
          result = ⟨(((g.levelOf q call descend).answer m).found,
            (g.levelOf q call descend).memoAfter m), (g.levelOf q call descend).warningsOf m⟩ ∨
        ∃ next later, g.nextCall call ((g.levelOf q call descend).answer m) = some next ∧
          g.Finishes q next ((g.levelOf q call descend).memoAfter m) later ∧
          result = ⟨later.value, (g.levelOf q call descend).warningsOf m ++ later.warnings⟩) := by
  cases h with
  | here hdescend hnext => exact ⟨_, hdescend, .inl ⟨hnext, rfl⟩⟩
  | above hdescend hnext hup => exact ⟨_, hdescend, .inr ⟨_, _, hnext, hup, rfl⟩⟩

/-- A call finishes in one way only. -/
theorem Finishes.unique {m : HopMemo} {result result' : Noted (List α × HopMemo)}
    (h : g.Finishes q call m result) (h' : g.Finishes q call m result') : result = result' := by
  induction h generalizing result' with
  | @here call m descend _ hnext ih =>
    obtain ⟨descend', hdescend', hend⟩ := h'.inv
    have hsame : g.levelOf q call descend = g.levelOf q call descend' :=
      levelOf_congr fun c names position found hcall =>
        funext fun m' => ih _ _ _ _ m' hcall (hdescend' _ _ _ _ m' hcall)
    rw [← hsame] at hend
    rcases hend with ⟨_, hresult⟩ | ⟨_, _, hnext', _⟩
    · exact hresult.symm
    · rw [hnext] at hnext'
      cases hnext'
  | @above call next m descend _ _ hnext _ ih ihup =>
    obtain ⟨descend', hdescend', hend⟩ := h'.inv
    have hsame : g.levelOf q call descend = g.levelOf q call descend' :=
      levelOf_congr fun c names position found hcall =>
        funext fun m' => ih _ _ _ _ m' hcall (hdescend' _ _ _ _ m' hcall)
    rw [← hsame] at hend
    rcases hend with ⟨hnext', _⟩ | ⟨_, later, hnext', hup', hresult⟩
    · rw [hnext] at hnext'
      cases hnext'
    · cases hnext.symm.trans hnext'
      rw [hresult, ihup hup']

/-! ## 3. Every search finishes -/

theorem nextCall_of_not_climbs (h : call.climbs = false) (level : Level α) :
    g.nextCall call level = none := by
  cases level with
  | done => rfl
  | goOn => exact if_neg (by rw [h]; exact Bool.false_ne_true)

theorem bind_apply {β γ : Type} (x : Query β) (f : β → Query γ) (m : HopMemo) :
    (x >>= f) m = ⟨(f (x.answer m) (x.memoAfter m)).value,
      x.warningsOf m ++ (f (x.answer m) (x.memoAfter m)).warnings⟩ := rfl

/-- What is made of an answer afterwards costs no warning. -/
theorem bind_pure_apply {β γ : Type} (x : Query β) (f : β → γ) (m : HopMemo) :
    (x >>= fun b => pure (f b)) m = ⟨(f (x.answer m), x.memoAfter m), x.warningsOf m⟩ :=
  Noted.ext_value rfl (List.append_nil _)

theorem descentAt_eq (q : Quest α) (n : Nat) :
    (if 0 < n then some (g.searchImported q (n - 1)) else none) = g.descentAt q n := by
  cases n <;> rfl

/-- The context of a level that goes on is there. -/
theorem context?_of_goOn {descent : Option (Descent α)} {c : ContextId} {names names' : List NameTrie}
    {position : Option Position} {found found' : List α} {data : Context} {m : HopMemo}
    (h : (g.searchLevel q descent c names position found).answer m = .goOn data names' found') :
    g.context? c = some data := by
  have hany : g.Steady (fun _ => True) q (fun _ => True) fun _ => True :=
    ⟨fun _ _ _ _ _ _ => ⟨fun _ _ => trivial, trivial⟩, fun _ _ _ _ _ _ _ _ => trivial,
      fun _ _ _ _ => trivial, fun _ _ => trivial⟩
  have hlevel : Yields (fun _ => True) (LevelMay g (fun _ => True) (fun _ => True) c)
      (g.searchLevel q descent c names position found) :=
    hany.searchLevel (fun _ _ _ _ _ _ _ _ _ _ => ⟨fun _ _ => trivial, trivial⟩) c position trivial
      fun _ _ => trivial
  have hgoOn := (hlevel m trivial).1
  rw [h] at hgoOn
  cases hgoOn with
  | goOn hc => exact hc

/-- The call that follows is one of those that a call makes. -/
theorem invokes_nextCall {descend : Descent α} {m : HopMemo} {next : SearchCall α}
    (h : g.nextCall call ((g.levelOf q call descend).answer m) = some next) :
    g.Invokes call next := by
  cases hanswer : (g.levelOf q call descend).answer m with
  | done found =>
    rw [hanswer] at h
    cases h
  | goOn data names found =>
    rw [hanswer, nextCall] at h
    split at h
    · next hclimbs =>
      obtain ⟨p, hp, rfl⟩ := Option.map_eq_some_iff.mp h
      exact .parent hclimbs ((parent?_of_context? (context?_of_goOn hanswer)).trans hp)
    · cases h

theorem depth_lt_of_invokes_into {c : ContextId} {names : List NameTrie}
    {position : Option Position} {found : List α}
    (h : g.Invokes call (call.into c names position found)) :
    call.depth < g.limits.importDepth := by
  generalize hnext : call.into c names position found = next at h
  cases h with
  | imported hdepth _ _ => exact hdepth
  | parent =>
    have hdepth := congrArg SearchCall.depth hnext
    simp [SearchCall.into, SearchCall.upTo] at hdepth

/-- **Behind an import a call finishes** with what the search inside imported contexts gives. -/
theorem finishes_searchImported {n : Nat} (hclimbs : call.climbs = false)
    (hn : call.depth + n = g.limits.importDepth) (m : HopMemo) :
    g.Finishes q call m
      (g.searchImported q n call.context call.names call.position call.found m) := by
  induction n generalizing call m with
  | zero =>
    have hlast : ¬ call.depth < g.limits.importDepth := by omega
    let descend : Descent α := fun _ _ _ found => pure found
    have hlevel : g.levelOf q call descend =
        g.searchLevel q none call.context call.names call.position call.found := by
      unfold levelOf
      rw [if_neg hlast]
    unfold searchImported
    rw [bind_pure_apply, ← hlevel]
    refine .here (fun c names position found m' hcall => ?_) (nextCall_of_not_climbs hclimbs _)
    exact absurd (depth_lt_of_invokes_into hcall) hlast
  | succ n ih =>
    have hdeeper : call.depth < g.limits.importDepth := by omega
    have hlevel : g.levelOf q call (g.searchImported q n) = g.searchLevel q
        (some (g.searchImported q n)) call.context call.names call.position call.found := by
      unfold levelOf
      rw [if_pos hdeeper]
    unfold searchImported
    rw [bind_pure_apply, ← hlevel]
    refine .here (fun c names position found m' _ => ?_) (nextCall_of_not_climbs hclimbs _)
    have hflat : (call.into c names position found).climbs = false := rfl
    have hnested : (call.into c names position found).depth + n = g.limits.importDepth := by
      simp only [SearchCall.into]
      omega
    exact ih hflat hnested m'

/-- Before the first import, what a call finds in its context and in what that imports. -/
theorem levelOf_first (hdepth : call.depth = 0) :
    g.levelOf q call (g.searchImported q (g.limits.importDepth - 1)) =
      g.searchLevel q (g.descentAt q g.limits.importDepth) call.context call.names call.position
        call.found := by
  unfold levelOf
  rw [hdepth, descentAt_eq]

theorem finishes_imported_first (hdepth : call.depth = 0) (c : ContextId) (names : List NameTrie)
    (position : Option Position) (found : List α) (m : HopMemo)
    (h : g.Invokes call (call.into c names position found)) :
    g.Finishes q (call.into c names position found) m
      (g.searchImported q (g.limits.importDepth - 1) c names position found m) := by
  have hflat : (call.into c names position found).climbs = false := rfl
  have hlt := depth_lt_of_invokes_into h
  have hcount : (call.into c names position found).depth + (g.limits.importDepth - 1) =
      g.limits.importDepth := by
    simp only [SearchCall.into]
    omega
  exact finishes_searchImported hflat hcount m

section Chain

variable (hdepth : call.depth = 0) {above : List ContextId}
  (habove : ∀ data, g.context? call.context = some data → above = data.parent.elim [] g.lineage)
  {level : Query (Level α)}
  (hlevel : g.levelOf q call (g.searchImported q (g.limits.importDepth - 1)) = level) {m : HopMemo}

include hdepth habove hlevel

/-- The search up a chain is over where no call follows. -/
theorem searchUp_of_nextCall_none (hnext : g.nextCall call (level.answer m) = none) :
    g.searchUp q call.climbs call.position (call.context :: above) call.names call.found m =
      ⟨((level.answer m).found, level.memoAfter m), level.warningsOf m⟩ := by
  unfold searchUp
  rw [levelOf_first hdepth] at hlevel
  rw [hlevel, bind_apply]
  cases hanswer : level.answer m with
  | done found => exact Noted.ext_value rfl (List.append_nil _)
  | goOn data names found =>
    dsimp only
    split
    · next hclimbs =>
      -- the call may climb, so there is no parent
      rw [hanswer, nextCall, if_pos hclimbs, Option.map_eq_none_iff] at hnext
      rw [← hlevel] at hanswer
      rw [habove data (context?_of_goOn hanswer), hnext]
      exact Noted.ext_value rfl (List.append_nil _)
    · exact Noted.ext_value rfl (List.append_nil _)

/-- Where a call follows, the search up a chain goes on with it. -/
theorem searchUp_of_nextCall_some {next : SearchCall α}
    (hnext : g.nextCall call (level.answer m) = some next) :
    g.parent? call.context = some next.context ∧ next.depth = 0 ∧
      g.searchUp q call.climbs call.position (call.context :: above) call.names call.found m =
        ⟨(g.searchUp q next.climbs next.position above next.names next.found
            (level.memoAfter m)).value,
          level.warningsOf m ++ (g.searchUp q next.climbs next.position above next.names next.found
            (level.memoAfter m)).warnings⟩ := by
  unfold searchUp
  rw [levelOf_first hdepth] at hlevel
  rw [hlevel, bind_apply]
  cases hanswer : level.answer m with
  | done found =>
    rw [hanswer] at hnext
    cases hnext
  | goOn data names found =>
    rw [hanswer, nextCall] at hnext
    split at hnext
    · next hclimbs =>
      obtain ⟨p, hp, rfl⟩ := Option.map_eq_some_iff.mp hnext
      rw [← hlevel] at hanswer
      have hdata := context?_of_goOn hanswer
      have hline := habove data hdata
      rw [hp, Option.elim_some] at hline
      refine ⟨(parent?_of_context? hdata).trans hp, hdepth, ?_⟩
      dsimp only
      rw [if_pos hclimbs, hline]
      rfl
    · cases hnext

end Chain

/-- **Along the parents a call finishes** with what the search up the chain gives. -/
theorem finishes_searchUp (ht : g.outline.Tree) (hdepth : call.depth = 0) (m : HopMemo) :
    g.Finishes q call m (g.searchUp q call.climbs call.position (g.lineage call.context) call.names
      call.found m) := by
  generalize hc : call.context = c
  induction c using (wellFounded_parent ht).induction generalizing call m with
  | _ c ih =>
    subst hc
    have habove : ∀ data, g.context? call.context = some data →
        (g.parent? call.context).elim [] g.lineage = data.parent.elim [] g.lineage := by
      intro data hdata
      rw [parent?_of_context? hdata]
    rw [lineage_unfold ht]
    cases hnext : g.nextCall call
        ((g.levelOf q call (g.searchImported q (g.limits.importDepth - 1))).answer m) with
    | none =>
      rw [searchUp_of_nextCall_none hdepth habove rfl hnext]
      exact .here (finishes_imported_first hdepth) hnext
    | some next =>
      obtain ⟨hparent, hfirst, hsearch⟩ := searchUp_of_nextCall_some hdepth habove rfl hnext
      rw [hsearch, hparent]
      exact .above (finishes_imported_first hdepth) hnext (ih next.context hparent hfirst _ rfl)

/-- **The search for a name finishes** with what it answers, but for answers that it has
    found more than once. -/
theorem finishes_search [BEq α] (ht : g.outline.Tree) {c : ContextId} (hc : g.hasContext c = true)
    (name : QualName) (position : Option Position) (climbs : Bool) (m : HopMemo) :
    ∃ found memo warnings,
      g.Finishes q (.start c name position climbs) m ⟨(found, memo), warnings⟩ ∧
        g.search q climbs c name position m = ⟨(found.eraseDups, memo), warnings⟩ := by
  have hfirst : (SearchCall.start c name position climbs : SearchCall α).depth = 0 := rfl
  have hfinishes : g.Finishes q (.start c name position climbs) m
      (g.searchUp q climbs position (g.lineage c) [.ofName name] [] m) :=
    finishes_searchUp ht hfirst m
  refine ⟨_, _, _, hfinishes, ?_⟩
  unfold search
  rw [if_pos hc, bind_pure_apply]
  rfl

/-! ## 4. Both searches -/

/-- **The calls of a search come to an end.** -/
structure SearchesEnd (g : Graph) (q : Quest α) : Prop where
  /-- no chain of calls goes on for ever -/
  wellFounded : WellFounded fun callee caller : SearchCall α => g.Invokes caller callee
  /-- imports nest up to the limit -/
  nesting : ∀ first call : SearchCall α, first.depth = 0 →
    Relation.ReflTransGen g.Invokes first call → call.depth ≤ g.limits.importDepth
  /-- behind an import there is no climbing -/
  flat : ∀ first call : SearchCall α, first.depth = 0 →
    Relation.ReflTransGen g.Invokes first call → 0 < call.depth → call.climbs = false
  /-- in front of the first import, calls are for contexts on the chain of parents -/
  climbing : ∀ first call : SearchCall α, first.depth = 0 →
    Relation.ReflTransGen g.Invokes first call → call.depth = 0 →
      call.context ∈ g.lineage first.context
  /-- calls one below the other are no more than there are parents and imports to go through -/
  height : ∀ (first : SearchCall α) (stack : List (SearchCall α)), first.depth = 0 →
    (first :: stack).IsChain g.Invokes →
      stack.length ≤ g.depth first.context + g.limits.importDepth
  /-- what a call finds hangs on no other calls for imported contexts -/
  asks : ∀ (call : SearchCall α) (descend descend' : Descent α),
    (∀ c names position found, g.Invokes call (call.into c names position found) →
      descend c names position found = descend' c names position found) →
    g.levelOf q call descend = g.levelOf q call descend'
  /-- and no other call follows it -/
  follows : ∀ (call next : SearchCall α) (descend : Descent α) m,
    g.nextCall call ((g.levelOf q call descend).answer m) = some next → g.Invokes call next
  /-- no call finishes in two ways -/
  unique : ∀ call m result result', g.Finishes q call m result → g.Finishes q call m result' →
    result = result'

theorem searchesEnd (ht : g.outline.Tree) (q : Quest α) : g.SearchesEnd q where
  wellFounded := wellFounded_invokes ht
  nesting _ _ hfirst h := (invokes_invariant ht rfl hfirst h).1
  flat _ _ hfirst h := (invokes_invariant ht rfl hfirst h).2.1
  climbing _ _ hfirst h := (invokes_invariant ht rfl hfirst h).2.2
  height first stack hfirst h := by
    have hlength := length_le_rank ht h
    have hrank : g.rank first ≤ g.depth first.context + g.limits.importDepth := by
      unfold rank
      split <;> omega
    omega
  asks _ _ _ h := levelOf_congr h
  follows _ _ _ _ h := invokes_nextCall h
  unique _ _ _ _ h h' := h.unique h'

end Graph

namespace Workspace

/-- **Searches end** after every sequence of calls: the calls of a search for declarations
    or for contexts come to an end, and the search finishes with what it answers. -/
theorem searches_end (limits : Limits) (calls : List Call)
    (hfrees : (empty limits).FewFrees calls) :
    let g := ((empty limits).run calls).graph
    (∀ filter, g.SearchesEnd (g.declarationQuest filter)) ∧
    (∀ kind, g.SearchesEnd (g.contextQuest kind)) ∧
    (∀ c name position type flags m, g.hasContext c = true → ∃ found memo warnings,
      g.Finishes (g.declarationQuest ⟨type, flags.onlyFunctions⟩)
          (.start c name position flags.climbs) m ⟨(found, memo), warnings⟩ ∧
        g.findDeclarations c name position type flags m = ⟨(found.eraseDups, memo), warnings⟩) ∧
    ∀ c kind name position flags m, g.hasContext c = true → ∃ found memo warnings,
      g.Finishes (g.contextQuest kind) (.start c name position flags.climbs) m
          ⟨(found, memo), warnings⟩ ∧
        g.findContexts c kind name position flags m = ⟨(found.eraseDups, memo), warnings⟩ := by
  intro g
  obtain ⟨_, hkept, _⟩ := kept_run hfrees
  have ht : g.outline.Tree := hkept.kempt.consistent.tree
  exact ⟨fun _ => Graph.searchesEnd ht _, fun _ => Graph.searchesEnd ht _,
    fun c name position type flags m hc => Graph.finishes_search ht hc name position _ m,
    fun c kind name position flags m hc => Graph.finishes_search ht hc name position _ m⟩

/-- Two contexts of a file that import each other, and an anonymous one that imports one of
    them and whose parent is gone. -/
def mutualImports : List Call :=
  [.change (.createTop ⟨0⟩ {}), .change (.createContext ⟨0, 0⟩ {}),
    .change (.createContext ⟨0, 0⟩ {}), .change (.addImport ⟨1, 0⟩ ⟨2, 0⟩ none),
    .change (.addImport ⟨2, 0⟩ ⟨1, 0⟩ none), .change (.createContext ⟨0, 0⟩ {}),
    .change (.createAnonymous ⟨3, 0⟩ {}), .change (.addImport ⟨4, 0⟩ ⟨1, 0⟩ none),
    .change (.deleteContext ⟨3, 0⟩)]

/-- From the anonymous context the circle is gone through until imports nest too deep, and
    the parent that is gone ends the search. -/
theorem searches_end_circle :
    let w := (empty { importDepth := 3 }).run mutualImports
    w.graph.parent? ⟨4, 0⟩ = some ⟨3, 0⟩ ∧ w.graph.hasContext ⟨3, 0⟩ = false ∧
      w.graph.hasContext ⟨4, 0⟩ = true ∧ ∃ found memo,
        w.graph.Finishes (w.graph.declarationQuest {})
          (.start ⟨4, 0⟩ { path := ["x"] } none true) w.memo
          ⟨(found, memo), [.importsTooDeep, .staleContextReached]⟩ := by
  intro w
  have hlive : w.graph.hasContext ⟨4, 0⟩ = true := by decide +kernel
  obtain ⟨_, _, hends, _⟩ := searches_end { importDepth := 3 } mutualImports
    (fewFrees_of_length (by decide))
  obtain ⟨found, memo, warnings, hfinishes, hsearch⟩ :=
    hends ⟨4, 0⟩ { path := ["x"] } none none {} w.memo hlive
  have hwarnings : (w.graph.findDeclarations ⟨4, 0⟩ { path := ["x"] } none none {}
      w.memo).warnings = [.importsTooDeep, .staleContextReached] := by decide +kernel
  rw [hsearch] at hwarnings
  refine ⟨by decide +kernel, by decide +kernel, hlive, found, memo, ?_⟩
  rw [← hwarnings]
  exact hfinishes

end Workspace

end ScopeGraph
