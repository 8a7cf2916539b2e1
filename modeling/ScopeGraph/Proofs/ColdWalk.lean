/-
  File:      ScopeGraph/Proofs/ColdWalk.lean
  Subject:   Walks that start from an empty memo, and what a memo changes.

  A walk from file to file asks the memo before it looks how deep it is. So a hop
  that is known may lead it past the limit of depth, and what was asked before can
  change what is found:

  * every way that is found with an empty memo is found with any memo, since more
    known hops lose no way (`Even.grows`);
  * a way that is found is there;
  * a walk that finds no way and was not cut for want of depth has looked
    everywhere: there is no way then (`concludes_reach`).

  So the answers are the same, unless the walk with the empty memo was cut.
-/
import ScopeGraph.Proofs.RepeatedWalk
import ScopeGraph.Proofs.Runs

namespace ScopeGraph

/-! ## 1. Walks that look everywhere -/

theorem Query.warningsOf_bind {α β : Type} (q : Query α) (f : α → Query β) (m : HopMemo) :
    (q >>= f).warningsOf m =
      q.warningsOf m ++ (f (q.answer m)).warningsOf (q.memoAfter m) := rfl

namespace Graph

open Query

/-- **The failure of a walk means something**: if it finds no way and does not give
    the warning of too much depth, then `P`. -/
def Concludes (g : Graph) (P : Prop) (q : Query Hop) : Prop :=
  ∀ m, g.Coherent m → (q.answer m).found = false → .importsTooDeep ∉ q.warningsOf m → P

variable {g : Graph} {t : TopId}

theorem warningsOf_recallOr {s : TopId} {search : Query Hop} {m : HopMemo}
    (h : m.find? s t = none) : (recallOr s t search).warningsOf m = search.warningsOf m := by
  have hanswer : (remembered s t).answer m = none := h
  have hmemo : (remembered s t).memoAfter m = m := rfl
  have hwarn : (remembered s t).warningsOf m = [] := rfl
  unfold recallOr
  rw [warningsOf_bind, hanswer, hmemo, hwarn, List.nil_append]
  dsimp only
  rw [warningsOf_bind]
  cases search.answer m with
  | via next => exact List.append_nil _
  | absent complete => cases complete <;> exact List.append_nil _

/-- What is remembered to be absent is absent. -/
theorem concludes_recallOr {P : Prop} {s : TopId} {search : Query Hop} (hs : g.IsTop s)
    (h : g.Concludes P search) (hP : ¬ g.TopPath s t → P) :
    g.Concludes P (recallOr s t search) := by
  intro m hm hf hdepth
  cases hfind : m.find? s t with
  | none =>
    rw [(recallOr_of_none hfind).1] at hf
    rw [warningsOf_recallOr hfind] at hdepth
    exact h m hm hf hdepth
  | some hop =>
    rw [(recallOr_of_some hfind).1] at hf
    cases hop with
    | some next => cases hf
    | none => exact hP (hm.truthful _ (mem_of_find? hfind) hs)

/-- A list of imports is searched to its end: each of them is a file that the walk
    is inside of, or one from which no way leads on. -/
theorem concludes_firstHop {inside : List TopId} {visit : TopId → Query Hop} {V : TopId → Prop}
    (hkeeps : ∀ next, Keeps g.Coherent (visit next))
    (hvisit : ∀ next, g.IsTop next → g.Concludes (V next) (visit next)) (imports : List Import) :
    g.Concludes (∀ i ∈ imports, ∀ next, g.top? i.context = some next →
      next ≠ t ∧ (next ∈ inside ∨ V next)) (g.firstHop t inside visit imports) := by
  induction imports with
  | nil =>
    intro m _ _ _ i hi
    cases hi
  | cons i rest ih =>
    intro m hm hf hdepth
    unfold firstHop at hf hdepth
    -- it is enough to know the first import and to search the rest
    have hcons : ∀ m', g.Coherent m' →
        ((g.firstHop t inside visit rest).answer m').found = false →
        .importsTooDeep ∉ (g.firstHop t inside visit rest).warningsOf m' →
        (∀ next, g.top? i.context = some next → next ≠ t ∧ (next ∈ inside ∨ V next)) →
        ∀ j ∈ i :: rest, ∀ next, g.top? j.context = some next →
          next ≠ t ∧ (next ∈ inside ∨ V next) := by
      intro m' hm' hf' hdepth' hi
      exact List.forall_mem_cons.mpr ⟨hi, ih m' hm' hf' hdepth'⟩
    cases ht : g.top? i.context with
    | none =>
      simp only [ht] at hf hdepth
      rw [warningsOf_bind, List.mem_append, not_or] at hdepth
      exact hcons m hm hf hdepth.2 fun next hn => by rw [ht] at hn; cases hn
    | some next =>
      simp only [ht] at hf hdepth
      by_cases he : next = t
      · rw [if_pos he] at hf
        cases hf
      · rw [if_neg he] at hf hdepth
        by_cases hin : next ∈ inside
        · rw [if_pos hin] at hf hdepth
          rw [warningsOf_bind, List.mem_append, not_or] at hdepth
          rw [answer_bind] at hf
          refine hcons m hm ((found_cut _).symm.trans hf) hdepth.1 fun x hx => ?_
          rw [ht] at hx
          cases hx
          exact ⟨he, .inl hin⟩
        · rw [if_neg hin] at hf hdepth
          rw [warningsOf_bind, List.mem_append, not_or] at hdepth
          rw [answer_bind] at hf
          cases ha : (visit next).answer m with
          | via later =>
            rw [ha] at hf
            cases hf
          | absent c =>
            rw [ha] at hf hdepth
            have hnext := hvisit next (isTop_of_top? ht).2 m hm (by rw [ha]; rfl) hdepth.1
            have hdepth' := hdepth.2
            rw [answer_bind] at hf
            rw [warningsOf_bind, List.mem_append, not_or] at hdepth'
            refine hcons _ (hkeeps next m hm).2 ((found_after c _).symm.trans hf) hdepth'.1
              fun x hx => ?_
            rw [ht] at hx
            cases hx
            exact ⟨he, .inr hnext⟩

/-- **A walk that finds no way and is not cut for want of depth has looked
    everywhere** outside of the files it is inside of. -/
theorem concludes_reach (depth : Nat) (inside : List TopId) {s : TopId} (hs : g.IsTop s) :
    g.Concludes (¬ g.PathOutside (s :: inside) s t) (g.reach t depth inside s) := by
  induction depth generalizing inside s with
  | zero =>
    refine concludes_recallOr hs (fun m _ _ hdepth => ?_) fun hno hpath => hno hpath.topPath
    exact absurd List.mem_cons_self hdepth
  | succ n ih =>
    refine concludes_recallOr hs ?_ fun hno hpath => hno hpath.topPath
    obtain ⟨data, hdata, _⟩ := isTop_iff.mp hs
    unfold hopFrom
    rw [hdata]
    intro m hm hf hdepth hpath
    have hall := concludes_firstHop (fun next => (yields_reach t n (s :: inside) next).keeps)
      (fun next hnext => ih (s :: inside) hnext) data.imports m hm hf hdepth
    cases hpath with
    | edge he =>
      obtain ⟨i, hi, htop⟩ := he.exists_import hdata
      exact (hall i hi _ htop).1 rfl
    | @cons _ next _ he hout hrest =>
      obtain ⟨i, hi, htop⟩ := he.exists_import hdata
      rcases (hall i hi next htop).2 with hin | hno
      · exact hout hin
      · exact hno hrest.simple

/-! ## 2. One memo and another -/

theorem coherent_empty : g.Coherent {} where
  truthful _ he := absurd he List.not_mem_nil
  grounded _ he := absurd he List.not_mem_nil

variable {s : TopId} {m m' : HopMemo}

/-- What is found with an empty memo is found with any. -/
theorem importsTop_of_empty (hs : g.IsTop s) (hm : g.Coherent m)
    (h : (g.importsTop s t).answer {} = true) : (g.importsTop s t).answer m = true :=
  (even_reach g.limits.importDepth [] hs).grows {} m coherent_empty hm
    (HopMemo.hopsAmong_empty t m) h

/-- A walk that is not cut for want of depth is answered with any memo as with its
    own. -/
theorem importsTop_of_uncut (hs : g.IsTop s) (hm : g.Coherent m) (hm' : g.Coherent m')
    (hdepth : .importsTooDeep ∉ (g.importsTop s t).warningsOf m)
    (h : (g.importsTop s t).answer m = false) : (g.importsTop s t).answer m' = false := by
  have hno : ¬ g.TopPath s t := by
    intro hpath
    unfold importsTop at hdepth
    rw [warningsOf_bind, List.mem_append, not_or] at hdepth
    exact concludes_reach g.limits.importDepth [] hs m hm h hdepth.1 hpath.pathOutside.simple
  cases h' : (g.importsTop s t).answer m' with
  | false => rfl
  | true => exact absurd (path_of_importsTop hs hm' h') hno

end Graph

/-! ## 3. After any questions -/

namespace Workspace

/-- Questions leave the graph as it is, and the memo telling the truth. -/
theorem coherent_questions (questions : List Question) {w : Workspace}
    (hw : w.graph.Coherent w.memo) :
    (w.run (questions.map .question)).graph = w.graph ∧
      w.graph.Coherent (w.run (questions.map .question)).memo := by
  induction questions generalizing w with
  | nil => exact ⟨rfl, hw⟩
  | cons q rest ih =>
    obtain ⟨hm, hg⟩ := q.keeps (fun s t => Graph.keeps_hopTowards s t) hw
    rw [← hg] at hm
    have hrest := ih hm
    rw [hg] at hrest
    exact hrest

/-- Three files of which each imports the next. -/
def fileChain : List Call :=
  [.change (.createTop ⟨0⟩ {}), .change (.createTop ⟨1⟩ {}), .change (.createTop ⟨2⟩ {}),
    .change (.addImport ⟨0, 0⟩ ⟨1, 0⟩ none), .change (.addImport ⟨1, 0⟩ ⟨2, 0⟩ none)]

/-- With a depth of one the first file is not found to import the third one, but it
    is once the second file has been asked: the walk finds a hop in the memo where
    it would have been too deep. -/
theorem importsTop_after_question :
    let w := (empty { importDepth := 1 }).run fileChain
    let asked := w.run [.question (.importsTop ⟨⟨1, 0⟩⟩ ⟨⟨2, 0⟩⟩)]
    w.graph.IsTop ⟨⟨0, 0⟩⟩ ∧ w.graph.IsTop ⟨⟨2, 0⟩⟩ ∧
      (w.graph.importsTop ⟨⟨0, 0⟩⟩ ⟨⟨2, 0⟩⟩).answer {} = false ∧
      (w.ask (·.importsTop ⟨⟨0, 0⟩⟩ ⟨⟨2, 0⟩⟩)).1 = false ∧
      (asked.ask (·.importsTop ⟨⟨0, 0⟩⟩ ⟨⟨2, 0⟩⟩)).1 = true := by
  decide

/-- **Questions are pure but for the limit of depth.** Whatever was asked before, a
    file that is found to import a target on an empty memo is found to do so, one
    that is found to do so does, and if the walk on the empty memo was not cut for
    want of depth the answer is the answer of this walk. -/
theorem importsTop_after_questions (limits : Limits) (calls : List Call)
    (hfrees : (empty limits).FewFrees calls) (questions : List Question) (s t : TopId)
    (hs : ((empty limits).run calls).graph.IsTop s) :
    let w := (empty limits).run calls
    let cold := w.graph.importsTop s t
    let answer := ((w.run (questions.map .question)).ask (·.importsTop s t)).1
    (cold.answer {} = true → answer = true) ∧ (answer = true → w.graph.TopPath s t) ∧
      (.importsTooDeep ∉ cold.warningsOf {} → answer = cold.answer {}) := by
  intro w cold answer
  have hw : w.graph.Coherent w.memo := (faithful_run hfrees).coherent
  obtain ⟨hgraph, hm⟩ := coherent_questions questions hw
  have hanswer : answer = cold.answer (w.run (questions.map .question)).memo := by
    show (Graph.importsTop (w.run (questions.map .question)).graph s t).answer _ = _
    rw [hgraph]
  rw [hanswer]
  have hfound := Graph.importsTop_of_empty (t := t) hs hm
  refine ⟨hfound, Graph.path_of_importsTop hs hm, fun hdepth => ?_⟩
  cases hcold : cold.answer {} with
  | true => exact hfound hcold
  | false => exact Graph.importsTop_of_uncut hs Graph.coherent_empty hm hdepth hcold

/-- With a depth of one the first file is asked for the second one and is answered as
    on an empty memo, also after the second one was asked for the third. -/
theorem importsTop_after_questions_near :
    let w := (empty { importDepth := 1 }).run fileChain
    let cold := w.graph.importsTop ⟨⟨0, 0⟩⟩ ⟨⟨1, 0⟩⟩
    let asked := w.run [.question (.importsTop ⟨⟨1, 0⟩⟩ ⟨⟨2, 0⟩⟩)]
    w.graph.IsTop ⟨⟨0, 0⟩⟩ ∧ .importsTooDeep ∉ cold.warningsOf {} ∧ cold.answer {} = true ∧
      (asked.ask (·.importsTop ⟨⟨0, 0⟩⟩ ⟨⟨1, 0⟩⟩)).1 = true := by
  have hpure := importsTop_after_questions { importDepth := 1 } fileChain
    (fewFrees_of_length (by decide)) [.importsTop ⟨⟨1, 0⟩⟩ ⟨⟨2, 0⟩⟩] ⟨⟨0, 0⟩⟩ ⟨⟨1, 0⟩⟩ (by decide)
  exact ⟨by decide, by decide, by decide, hpure.1 (by decide)⟩

end Workspace

end ScopeGraph
