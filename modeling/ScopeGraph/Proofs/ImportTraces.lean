/-
  File:      ScopeGraph/Proofs/ImportTraces.lean
  Subject:   The trace of an import is a chain of imports.

  A trace follows the hops of the memo from a file to the target. The hops were laid by
  different questions, before and after edits, so it is not enough that each of them is
  right. What carries the proof is that they form a route (HopRoutes.lean):

  * along a route the trace meets no file twice and asks for nothing that is not known,
    so it ends, gives no warning and leaves the memo as it is (`traceFrom_of_route`);
  * a route goes through different live tops, so the bound of the trace is not reached;
  * `importTrace_exact`: in every state there is a trace exactly if a way is found, and
    it is a chain of imports that are there.
-/
import ScopeGraph.Proofs.ColdWalk
import ScopeGraph.Proofs.HopRoutes

namespace ScopeGraph

namespace Graph

open HopMemo Query

/-! ## 1. Chains of imports -/

/-- A context is there and writes the import of another one at a position. -/
def ImportsAt (g : Graph) (a b : ContextId) (position : Option Position) : Prop :=
  ∃ data, g.context? a = some data ∧ ⟨b, position⟩ ∈ data.imports

/-- **A chain of imports from a file to a target**: each item is a live top with the
    position at which it imports the next one, and the last one imports the target. -/
inductive ImportChain (g : Graph) (t : TopId) : TopId → List TraceItem → Prop where
  | last {s : TopId} {p : Option Position} : g.IsTop s → g.ImportsAt s.context t.context p →
      ImportChain g t s [⟨s, p⟩]
  | cons {s next : TopId} {p : Option Position} {rest : List TraceItem} : g.IsTop s →
      g.ImportsAt s.context next.context p → ImportChain g t next rest →
      ImportChain g t s (⟨s, p⟩ :: rest)

variable {g : Graph} {t : TopId} {m : HopMemo}

/-- The position of an import is the one that is written with it. -/
theorem importsAt_importPosition? {a b : ContextId} (h : g.Imports a b) :
    g.ImportsAt a b (g.importPosition? a b) := by
  obtain ⟨data, hdata, himports⟩ := h
  refine ⟨data, hdata, ?_⟩
  unfold importPosition?
  rw [hdata, Option.bind_some]
  cases hfind : data.imports.find? (·.context = b) with
  | none =>
    obtain ⟨i, hi, hb⟩ := List.mem_map.mp (importsDirectly_iff.mp himports)
    have hno := List.find?_eq_none.mp hfind i hi
    simp [hb] at hno
  | some i =>
    have hb : i.context = b := by simpa using List.find?_some hfind
    subst hb
    exact List.mem_of_find?_eq_some hfind

/-! ## 2. The trace along a route -/

/-- A hop that is known is the answer, and asking for it does nothing. -/
theorem hopTowards_of_known {s next : TopId} (h : m.find? s t = some (some next)) :
    (g.hopTowards s t).answer m = .via next ∧ (g.hopTowards s t).memoAfter m = m ∧
      (g.hopTowards s t).warningsOf m = [] := by
  have hall : ∀ search, (recallOr s t search).answer m = .via next ∧
      (recallOr s t search).memoAfter m = m ∧ (recallOr s t search).warningsOf m = [] := by
    intro search
    refine ⟨(recallOr_of_some h).1, (recallOr_of_some h).2, ?_⟩
    have hanswer : (remembered s t).answer m = some (some next) := h
    unfold recallOr
    rw [warningsOf_bind, hanswer]
    rfl
  unfold hopTowards
  cases g.limits.importDepth with
  | zero => exact hall _
  | succ n => exact hall _

/-- **The trace along a route** is a chain of imports through the files of the route, and
    it gives no warning. -/
theorem traceFrom_of_route {s : TopId} {route : List TopId} (hroute : m.Route t s route)
    (htruth : g.Truthful m) (hs : g.IsTop s) {n : Nat} {visited : List TopId}
    (hlong : route.length ≤ n) (hfresh : ∀ x ∈ route, x ∉ visited) :
    (g.traceFrom t n visited s).warningsOf m = [] ∧
      ∃ trace, (g.traceFrom t n visited s).answer m = some trace ∧
        trace.map (·.top) = route ∧ g.ImportChain t s trace := by
  induction hroute generalizing n visited with
  | @last s hfind =>
    obtain ⟨hanswer, _, hwarn⟩ := hopTowards_of_known (g := g) hfind
    have hedge : g.TopEdge s t := (htruth _ (mem_of_find? hfind) hs).1
    cases n with
    | zero => cases hlong
    | succ n =>
      unfold traceFrom
      rw [if_neg (hfresh s List.mem_cons_self), warningsOf_bind, answer_bind, hanswer, hwarn]
      dsimp only
      rw [if_pos rfl]
      exact ⟨rfl, _, rfl, rfl, .last hs (importsAt_importPosition? hedge.imports)⟩
  | @hop s next rest hfind hne hout _ ih =>
    obtain ⟨hanswer, hmemo, hwarn⟩ := hopTowards_of_known (g := g) hfind
    have hedge : g.TopEdge s next := (htruth _ (mem_of_find? hfind) hs).1
    cases n with
    | zero => cases hlong
    | succ n =>
      have hfresh' : ∀ x ∈ rest, x ∉ s :: visited := by
        intro x hx hmem
        rcases List.mem_cons.mp hmem with rfl | hmem
        · exact hout hx
        · exact hfresh x (List.mem_cons_of_mem s hx) hmem
      obtain ⟨hwarn', trace, htrace, htops, hchain⟩ :=
        ih hedge.target (Nat.le_of_succ_le_succ hlong) hfresh'
      unfold traceFrom
      rw [if_neg (hfresh s List.mem_cons_self), warningsOf_bind, answer_bind, hanswer, hwarn,
        hmemo]
      dsimp only
      rw [if_neg hne, warningsOf_bind, answer_bind, hwarn', htrace]
      refine ⟨rfl, _, rfl, ?_, .cons hs (importsAt_importPosition? hedge.imports) hchain⟩
      rw [List.map_cons, htops]

/-- The files of a route are live tops. -/
theorem isTop_of_route {s : TopId} {route : List TopId} (hroute : m.Route t s route)
    (htruth : g.Truthful m) (hs : g.IsTop s) : ∀ x ∈ route, g.IsTop x := by
  induction hroute with
  | last _ => simpa using hs
  | hop hfind _ _ _ ih =>
    have hedge := (htruth _ (mem_of_find? hfind) hs).1
    exact List.forall_mem_cons.mpr ⟨hs, ih hedge.target⟩

/-- A route is shorter than the bound of chains. -/
theorem length_lt_chainBound {s : TopId} {route : List TopId} (hroute : m.Route t s route)
    (htruth : g.Truthful m) (hs : g.IsTop s) : route.length < g.chainBound := by
  have htops := isTop_of_route hroute htruth hs
  have hnd : (route.map (·.context)).Nodup :=
    hroute.nodup.map fun x y h => by cases x; cases y; cases h; rfl
  have hlive : ∀ c ∈ route.map (·.context), (g.contexts.get? c).isSome := by
    intro c hc
    obtain ⟨x, hx, rfl⟩ := List.mem_map.mp hc
    obtain ⟨data, hdata, _⟩ := isTop_iff.mp (htops x hx)
    exact Option.isSome_of_eq_some hdata
  have hle := Store.length_le_capacity hnd hlive
  rw [List.length_map] at hle
  unfold chainBound
  omega

/-! ## 3. What a walk warns of -/

/-- **A question that finds nothing inconsistent**, whatever the memo holds. -/
def Calm {α : Type} (q : Query α) : Prop := ∀ m, .importsInconsistent ∉ q.warningsOf m

theorem Calm.bind {α β : Type} {q : Query α} {f : α → Query β} (hq : Calm q)
    (hf : ∀ a, Calm (f a)) : Calm (q >>= f) := by
  intro m hmem
  rw [warningsOf_bind, List.mem_append] at hmem
  rcases hmem with hmem | hmem
  · exact hq m hmem
  · exact hf _ _ hmem

theorem calm_pure {α : Type} (a : α) : Calm (pure a : Query α) := fun _ => List.not_mem_nil

theorem calm_warn {x : Warning} (hx : x ≠ .importsInconsistent) : Calm (Query.warn x) :=
  fun _ hmem => hx (List.mem_singleton.mp hmem).symm

theorem calm_recallOr {s : TopId} {search : Query Hop} (h : Calm search) :
    Calm (recallOr s t search) := by
  unfold recallOr
  refine Calm.bind (fun _ => List.not_mem_nil) fun known => ?_
  rcases known with _ | hop
  · refine h.bind fun found => ?_
    rcases found with next | complete
    · exact Calm.bind (fun _ => List.not_mem_nil) fun _ => calm_pure _
    · cases complete with
      | true => exact Calm.bind (fun _ => List.not_mem_nil) fun _ => calm_pure _
      | false => exact calm_pure _
  · exact calm_pure _

theorem calm_firstHop {inside : List TopId} {visit : TopId → Query Hop}
    (hvisit : ∀ next, Calm (visit next)) (imports : List Import) :
    Calm (g.firstHop t inside visit imports) := by
  induction imports with
  | nil => exact calm_pure _
  | cons i rest ih =>
    unfold firstHop
    cases g.top? i.context with
    | none => exact (calm_warn (by split <;> decide)).bind fun _ => ih
    | some next =>
      dsimp only
      split
      · exact calm_pure _
      · split
        · exact ih.bind fun _ => calm_pure _
        · refine (hvisit next).bind fun hop => ?_
          cases hop with
          | via later => exact calm_pure _
          | absent complete => exact ih.bind fun _ => calm_pure _

theorem calm_reach (depth : Nat) (inside : List TopId) (s : TopId) :
    Calm (g.reach t depth inside s) := by
  induction depth generalizing inside s with
  | zero => exact calm_recallOr ((calm_warn (by decide)).bind fun _ => calm_pure _)
  | succ n ih =>
    unfold reach hopFrom
    refine calm_recallOr ?_
    cases g.context? s.context with
    | none => exact (calm_warn (by decide)).bind fun _ => calm_pure _
    | some data => exact calm_firstHop (ih (s :: inside)) data.imports

/-! ## 4. The trace of a question -/

/-- **Where a way is found the trace is a chain of different files, and where none is
    found it is empty.** Nothing inconsistent is met. -/
theorem importTrace_of_routed {s : TopId} (hs : g.IsTop s) (hm : g.Coherent m)
    (hroutes : g.Routed m) :
    .importsInconsistent ∉ (g.importTrace s t).warningsOf m ∧
      (((g.importsTop s t).answer m = false ∧ (g.importTrace s t).answer m = []) ∨
        ((g.importsTop s t).answer m = true ∧ (g.importTrace s t).answer m ≠ [] ∧
          g.ImportChain t s ((g.importTrace s t).answer m) ∧
          (((g.importTrace s t).answer m).map (·.top)).Nodup)) := by
  have hcalm : .importsInconsistent ∉ (g.hopTowards s t).warningsOf m := calm_reach _ [] s m
  unfold importsTop importTrace
  rw [warningsOf_bind, answer_bind, answer_bind]
  cases hhop : (g.hopTowards s t).answer m with
  | absent complete =>
    refine ⟨fun hmem => ?_, .inl ⟨rfl, rfl⟩⟩
    rcases List.mem_append.mp hmem with hmem | hmem
    · exact hcalm hmem
    · cases hmem
  | via next =>
    have hknows := (laid_reach g.limits.importDepth [] s m List.not_mem_nil).2
      (congrArg Hop.found hhop)
    have hm' : g.Coherent ((g.hopTowards s t).memoAfter m) := (keeps_hopTowards s t m hm).2
    obtain ⟨route, hroute⟩ := (keeps_routed s t m hroutes).2 s t hs hknows
    have hlong : route.length ≤ g.chainBound + 1 :=
      Nat.le_succ_of_le (Nat.le_of_lt (length_lt_chainBound hroute hm'.truthful hs))
    have hfresh : ∀ x ∈ route, x ∉ ([] : List TopId) := fun _ _ => List.not_mem_nil
    obtain ⟨hwarn, trace, htrace, htops, hchain⟩ :=
      traceFrom_of_route hroute hm'.truthful hs hlong hfresh
    dsimp only
    rw [warningsOf_bind, answer_bind, hwarn, htrace]
    refine ⟨fun hmem => ?_, .inr ⟨rfl, ?_, hchain, ?_⟩⟩
    · rcases List.mem_append.mp hmem with hmem | hmem
      · exact hcalm hmem
      · cases hmem
    · show trace ≠ []
      cases hchain <;> exact List.cons_ne_nil _ _
    · show (trace.map (·.top)).Nodup
      rw [htops]
      exact hroute.nodup

end Graph

/-! ## 5. In every state -/

namespace Workspace

/-- **Import traces are chains of imports.** Whatever was edited and asked before, the
    trace from a live top to a target is not empty exactly if the top is found to import
    the target. It then begins with the top and goes through different live tops, each
    of which imports the next one, and the last one the target, at the position that
    stands in the trace. Nothing inconsistent is met on the way. -/
theorem importTrace_exact (limits : Limits) (calls : List Call)
    (hfrees : (empty limits).FewFrees calls) (s t : TopId)
    (hs : ((empty limits).run calls).graph.IsTop s) :
    let w := (empty limits).run calls
    let trace := (w.ask (·.importTrace s t)).1
    (trace ≠ [] ↔ (w.ask (·.importsTop s t)).1 = true) ∧
      (trace ≠ [] → w.graph.ImportChain t s trace ∧ (trace.map (·.top)).Nodup) ∧
      .importsInconsistent ∉ (w.graph.importTrace s t).warningsOf w.memo := by
  intro w trace
  have hw : w.Faithful := faithful_run hfrees
  have hs : w.graph.IsTop s := hs
  obtain ⟨hcalm, hcases⟩ :=
    Graph.importTrace_of_routed (t := t) hs hw.coherent hw.linked.routed
  have htrace : trace = (w.graph.importTrace s t).answer w.memo := rfl
  have hfound : (w.ask (·.importsTop s t)).1 = (w.graph.importsTop s t).answer w.memo := rfl
  rw [htrace, hfound]
  rcases hcases with ⟨hno, hempty⟩ | ⟨hyes, hne, hchain, hnd⟩
  · exact ⟨by simp [hno, hempty], fun hne => absurd hempty hne, hcalm⟩
  · exact ⟨by simp [hyes, hne], fun _ => ⟨hchain, hnd⟩, hcalm⟩

/-- Three files in a circle. The ways from the first two files to the third one are
    asked for, then the last import of them is taken out and written anew, and they are
    asked for again. -/
def mendedCircle : List Call :=
  let file (i : Nat) : TopId := ⟨⟨i, 0⟩⟩
  [.change (.createTop ⟨0⟩ {}), .change (.createTop ⟨1⟩ {}), .change (.createTop ⟨2⟩ {}),
    .change (.addImport ⟨0, 0⟩ ⟨1, 0⟩ (some ⟨4, 0⟩)),
    .change (.addImport ⟨1, 0⟩ ⟨2, 0⟩ none),
    .question (.importsTop (file 1) (file 2)), .question (.importsTop (file 0) (file 2)),
    .change (.removeImport ⟨1, 0⟩ ⟨2, 0⟩), .change (.addImport ⟨2, 0⟩ ⟨0, 0⟩ (some ⟨6, 0⟩)),
    .change (.addImport ⟨1, 0⟩ ⟨2, 0⟩ (some ⟨5, 0⟩)),
    .question (.importsTop (file 1) (file 2)), .question (.importsTop (file 0) (file 2))]

/-- With a depth of one, the trace from the third file to itself goes once around the
    circle: the walk is too deep, but the hops are known. -/
theorem importTrace_exact_circle :
    let w := (empty { importDepth := 1 }).run mendedCircle
    let trace := (w.ask (·.importTrace ⟨⟨2, 0⟩⟩ ⟨⟨2, 0⟩⟩)).1
    trace = [⟨⟨⟨2, 0⟩⟩, some ⟨6, 0⟩⟩, ⟨⟨⟨0, 0⟩⟩, some ⟨4, 0⟩⟩, ⟨⟨⟨1, 0⟩⟩, some ⟨5, 0⟩⟩] ∧
      w.graph.ImportChain ⟨⟨2, 0⟩⟩ ⟨⟨2, 0⟩⟩ trace ∧ (trace.map (·.top)).Nodup ∧
      (w.ask (·.importsTop ⟨⟨2, 0⟩⟩ ⟨⟨2, 0⟩⟩)).1 = true ∧
      (w.graph.importsTop ⟨⟨2, 0⟩⟩ ⟨⟨2, 0⟩⟩).answer {} = false := by
  have hexact := importTrace_exact { importDepth := 1 } mendedCircle
    (fewFrees_of_length (by decide)) ⟨⟨2, 0⟩⟩ ⟨⟨2, 0⟩⟩ (by decide)
  obtain ⟨hchain, hnd⟩ := hexact.2.1 (by decide)
  exact ⟨by decide, hchain, hnd, hexact.1.mp (by decide), by decide⟩

end Workspace

end ScopeGraph
