/-
  File:      ScopeGraph/Proofs/HopRoutes.lean
  Subject:   The hops of the memo lead to their targets, and never in a circle.

  The memo knows of each file the next one only. That a hop is right (ImportWalk.lean)
  does not mean that the hops, one after the other, arrive: imports go in circles, the
  hops of one way may come from different questions, and edits make the memo forget some
  of them.

  * `HopMemo.Route`: the files through which the hops lead to a target, none twice;
  * `Graph.Lay`: what a walk does to the memo, one answer after the other. A hop is laid
    only where none was, and only to the target or to a file that has its hop already.
    So the hops that are known stay, and new ones end where they do (`Lay.routed`);
  * `Routed.forget`: a set of files that no import leaves keeps its routes, whatever is
    forgotten of other files.
-/
import ScopeGraph.Proofs.RepeatedWalk

namespace ScopeGraph

/-! ## 1. Routes -/

namespace HopMemo

/-- The files from a source on through which the hops of the memo lead to a target,
    without the target itself. -/
inductive Route (m : HopMemo) (t : TopId) : TopId → List TopId → Prop where
  | last {s : TopId} : m.find? s t = some (some t) → Route m t s [s]
  | hop {s next : TopId} {rest : List TopId} : m.find? s t = some (some next) → next ≠ t →
      s ∉ rest → Route m t next rest → Route m t s (s :: rest)

theorem knows_iff {m : HopMemo} {s t : TopId} :
    m.knows s t = true ↔ ∃ next, m.find? s t = some (some next) := by
  unfold knows
  rcases m.find? s t with _ | _ | next <;> simp

/-- A memo of which answers are taken out says the same as before where all answers
    are kept. -/
theorem find?_filter {m : HopMemo} {keep : HopEntry → Bool} {s t : TopId}
    (h : ∀ e ∈ m.entries, e.source = s → e.target = t → keep e = true) :
    (⟨m.entries.filter keep⟩ : HopMemo).find? s t = m.find? s t := by
  obtain ⟨entries⟩ := m
  unfold find?
  congr 1
  induction entries with
  | nil => rfl
  | cons e rest ih =>
    have hrest := ih fun x hx => h x (List.mem_cons_of_mem e hx)
    by_cases hkey : e.source = s ∧ e.target = t
    · simp [h e List.mem_cons_self hkey.1 hkey.2, hkey]
    · cases hk : keep e <;> simp_all

namespace Route

variable {m m' : HopMemo} {s t : TopId} {route : List TopId}

theorem nodup (h : m.Route t s route) : route.Nodup := by
  induction h with
  | last _ => exact List.nodup_singleton _
  | hop _ _ hout _ ih => exact List.nodup_cons.mpr ⟨hout, ih⟩

/-- Every file of a route has a hop. -/
theorem knows (h : m.Route t s route) : ∀ x ∈ route, m.knows x t = true := by
  induction h with
  | last hs => simp [knows_iff, hs]
  | hop hs _ _ _ ih =>
    intro x hx
    rcases List.mem_cons.mp hx with rfl | hx
    · exact knows_iff.mpr ⟨_, hs⟩
    · exact ih x hx

/-- A memo that says the same of the files of a route has it too. -/
theorem congr (h : m.Route t s route) (hsame : ∀ x ∈ route, m'.find? x t = m.find? x t) :
    m'.Route t s route := by
  induction h with
  | last hs => exact .last ((hsame _ List.mem_cons_self).trans hs)
  | hop hs hne hout _ ih =>
    refine .hop ((hsame _ List.mem_cons_self).trans hs) hne hout (ih fun x hx => ?_)
    exact hsame x (List.mem_cons_of_mem _ hx)

end Route

end HopMemo

/-! ## 2. How a walk lays hops -/

namespace Graph

open HopMemo Query

/-- **One answer more on the way to a target**, about a file that the walk is not inside
    of and of which nothing was known. A hop is a live top, and it is the target or has a
    hop already. -/
inductive Lay (g : Graph) (t : TopId) (inside : List TopId) (m : HopMemo) : HopMemo → Prop where
  | store {s : TopId} {hop : Option TopId} : s ∉ inside → m.find? s t = none →
      (∀ next, hop = some next → g.IsTop next ∧ (next = t ∨ m.knows next t = true)) →
      Lay g t inside m (m.store s t hop)

/-- Answers one after the other. -/
def Laid (g : Graph) (t : TopId) (inside : List TopId) : HopMemo → HopMemo → Prop :=
  Relation.ReflTransGen (g.Lay t inside)

/-- Wherever a live top has a hop, the hops lead to the target. -/
def Routed (g : Graph) (m : HopMemo) : Prop :=
  ∀ s t, g.IsTop s → m.knows s t = true → ∃ route, m.Route t s route

variable {g : Graph} {t : TopId} {inside : List TopId} {m m' : HopMemo}

/-- What was known stays. -/
theorem Lay.find? (h : g.Lay t inside m m') {s t' : TopId} {hop : Option TopId}
    (hs : m.find? s t' = some hop) : m'.find? s t' = some hop := by
  cases h with
  | @store s₀ hop₀ _ hnone _ =>
    rw [find?_store_of_ne]
    · exact hs
    · rintro ⟨rfl, rfl⟩
      rw [hnone] at hs
      cases hs

/-- Of the files that the walk is inside of nothing is said. -/
theorem Lay.spares (h : g.Lay t inside m m') {s : TopId} (hs : s ∈ inside) :
    m'.find? s t = m.find? s t := by
  cases h with
  | store hout _ _ =>
    refine find?_store_of_ne _ _ fun e => hout ?_
    rw [e.1]
    exact hs

theorem Laid.spares (h : g.Laid t inside m m') {s : TopId} (hs : s ∈ inside) :
    m'.find? s t = m.find? s t := by
  induction h with
  | refl => rfl
  | tail _ hlay ih => exact (hlay.spares hs).trans ih

theorem Laid.outside {s : TopId} (h : g.Laid t (s :: inside) m m') : g.Laid t inside m m' := by
  refine Relation.ReflTransGen.mono (fun m m' hlay => ?_) _ _ h
  cases hlay with
  | store hout hnone hhop => exact .store (fun hs => hout (List.mem_cons_of_mem s hs)) hnone hhop

/-- A route is still there after one answer more. -/
theorem Lay.route (h : g.Lay t inside m m') {s t' : TopId} {route : List TopId}
    (hroute : m.Route t' s route) : m'.Route t' s route := by
  refine hroute.congr fun x hx => ?_
  obtain ⟨next, hnext⟩ := knows_iff.mp (hroute.knows x hx)
  rw [hnext]
  exact h.find? hnext

/-- **One answer more keeps the routes.** The new hop goes to where a route begins, and
    its own file is not on this route, since every file of a route had a hop before. -/
theorem Lay.routed (h : g.Lay t inside m m') (hm : g.Routed m) : g.Routed m' := by
  have hroutes : ∀ s t' route, m.Route t' s route → m'.Route t' s route := fun _ _ _ => h.route
  intro s' t' htop hknows
  cases h with
  | @store s hop _ hnone hhop =>
    by_cases he : s = s' ∧ t = t'
    · obtain ⟨rfl, rfl⟩ := he
      rw [knows_store_self] at hknows
      obtain ⟨next, rfl⟩ := Option.isSome_iff_exists.mp hknows
      have hfind : (m.store s t (some next)).find? s t = some (some next) := by
        rw [find?_store, if_pos ⟨rfl, rfl⟩]
      obtain ⟨hnext, hlater⟩ := hhop next rfl
      by_cases hend : next = t
      · subst hend
        exact ⟨[s], .last hfind⟩
      · obtain ⟨rest, hrest⟩ := hm next t hnext (hlater.resolve_left hend)
        have hout : s ∉ rest := by
          intro hs
          have hk := hrest.knows s hs
          rw [HopMemo.knows, hnone] at hk
          cases hk
        exact ⟨s :: rest, .hop hfind hend hout (hroutes _ _ _ hrest)⟩
    · rw [HopMemo.knows, find?_store_of_ne _ _ he] at hknows
      obtain ⟨route, hr⟩ := hm s' t' htop hknows
      exact ⟨route, hroutes _ _ _ hr⟩

theorem Laid.routed (h : g.Laid t inside m m') (hm : g.Routed m) : g.Routed m' := by
  induction h with
  | refl => exact hm
  | tail _ hlay ih => exact hlay.routed ih

/-! ## 3. The walk -/

/-- Where the walk over a list of imports finds a way, the next file is the target or has
    its hop by then. -/
theorem laid_firstHop {visit : TopId → Query Hop}
    (hvisit : ∀ next m, next ∉ inside → g.Laid t inside m ((visit next).memoAfter m) ∧
      (((visit next).answer m).found = true → ((visit next).memoAfter m).knows next t = true))
    (imports : List Import) (m : HopMemo) :
    g.Laid t inside m ((g.firstHop t inside visit imports).memoAfter m) ∧
      ∀ next, (g.firstHop t inside visit imports).answer m = .via next → g.IsTop next ∧
        (next = t ∨ ((g.firstHop t inside visit imports).memoAfter m).knows next t = true) := by
  induction imports generalizing m with
  | nil => exact ⟨.refl, fun next h => by cases h⟩
  | cons i rest ih =>
    unfold firstHop
    cases ht : g.top? i.context with
    | none => exact ih m
    | some first =>
      have htop := (isTop_of_top? ht).2
      dsimp only
      by_cases he : first = t
      · rw [if_pos he]
        refine ⟨.refl, fun next h => ?_⟩
        cases h
        exact ⟨htop, .inl he⟩
      · rw [if_neg he]
        by_cases hin : first ∈ inside
        · rw [if_pos hin, answer_bind, memoAfter_bind]
          refine ⟨(ih m).1, fun next h => (ih m).2 next ?_⟩
          cases hrest : (g.firstHop t inside visit rest).answer m with
          | via later => rw [hrest] at h; exact h
          | absent complete => rw [hrest] at h; cases h
        · rw [if_neg hin, answer_bind, memoAfter_bind]
          obtain ⟨hlaid, hknown⟩ := hvisit first m hin
          cases hfirst : (visit first).answer m with
          | via later =>
            rw [hfirst] at hknown
            refine ⟨hlaid, fun next h => ?_⟩
            cases h
            exact ⟨htop, .inr (hknown rfl)⟩
          | absent complete =>
            dsimp only
            rw [answer_bind, memoAfter_bind]
            obtain ⟨hlaid', hvia⟩ := ih ((visit first).memoAfter m)
            refine ⟨hlaid.trans hlaid', fun next h => hvia next ?_⟩
            cases hrest : (g.firstHop t inside visit rest).answer ((visit first).memoAfter m) with
            | via later => rw [hrest] at h; exact h
            | absent complete' => rw [hrest] at h; cases h

/-- What a walk finds goes into the memo after what was found on the way. -/
theorem laid_recallOr {s : TopId} {search : Query Hop} (hs : s ∉ inside) (m : HopMemo)
    (hlaid : g.Laid t (s :: inside) m (search.memoAfter m))
    (hvia : ∀ next, search.answer m = .via next → g.IsTop next ∧
      (next = t ∨ (search.memoAfter m).knows next t = true)) :
    g.Laid t inside m ((recallOr s t search).memoAfter m) := by
  cases hfind : m.find? s t with
  | some hop =>
    rw [(recallOr_of_some hfind).2]
    exact .refl
  | none =>
    rw [(recallOr_of_none hfind).2]
    have hnone : (search.memoAfter m).find? s t = none :=
      (hlaid.spares List.mem_cons_self).trans hfind
    cases ha : search.answer m with
    | via next =>
      refine hlaid.outside.tail (.store hs hnone fun x hx => ?_)
      cases hx
      exact hvia next ha
    | absent complete =>
      cases complete with
      | true => exact hlaid.outside.tail (.store hs hnone fun x hx => by cases hx)
      | false => exact hlaid.outside

/-- **A walk lays hops**, and if it finds a way its own file has one. -/
theorem laid_reach (depth : Nat) (inside : List TopId) (s : TopId) (m : HopMemo)
    (hs : s ∉ inside) : g.Laid t inside m ((g.reach t depth inside s).memoAfter m) ∧
      (((g.reach t depth inside s).answer m).found = true →
        ((g.reach t depth inside s).memoAfter m).knows s t = true) := by
  induction depth generalizing inside s m with
  | zero =>
    refine ⟨laid_recallOr hs m .refl fun next h => ?_, knows_recallOr⟩
    cases h
  | succ n ih =>
    refine ⟨?_, knows_recallOr⟩
    unfold reach
    cases hc : g.context? s.context with
    | none =>
      have hgone : g.hopFrom t (s :: inside) (g.reach t n (s :: inside)) s = (do
          Query.warn .importedGone
          pure (.absent true)) := by
        unfold hopFrom
        rw [hc]
      rw [hgone]
      refine laid_recallOr hs m .refl fun next h => ?_
      cases h
    | some data =>
      have hhop : g.hopFrom t (s :: inside) (g.reach t n (s :: inside)) s =
          g.firstHop t (s :: inside) (g.reach t n (s :: inside)) data.imports := by
        unfold hopFrom
        rw [hc]
      rw [hhop]
      obtain ⟨hlaid, hvia⟩ := laid_firstHop (g := g) (t := t)
        (fun next m hout => ih (s :: inside) next m hout) data.imports m
      exact laid_recallOr hs m hlaid hvia

/-- **No walk spoils the routes.** -/
theorem keeps_routed (s t : TopId) : Keeps g.Routed (g.hopTowards s t) :=
  fun m hm => ⟨trivial, (laid_reach _ [] s m List.not_mem_nil).1.routed hm⟩

/-! ## 4. Other graphs, and memos that forget -/

variable {g' : Graph}

theorem Routed.of_tops (hm : g.Routed m)
    (h : ∀ s t, g'.IsTop s → m.knows s t = true → g.IsTop s) : g'.Routed m :=
  fun s t hs hk => hm s t (h s t hs hk) hk

/-- **Answers that are kept for a file and for all to which imports lead from it keep
    their routes.** -/
theorem Routed.forget {K : TopId → TopId → Prop} (hm : g.Routed m) (htruth : g.Truthful m)
    (hkept : ∀ s t, g'.IsTop s → m'.knows s t = true → g.IsTop s ∧ K s t)
    (hsame : ∀ s t, g.IsTop s → K s t → m'.find? s t = m.find? s t)
    (hclosed : ∀ s next t, g.TopEdge s next → K s t → K next t) : g'.Routed m' := by
  intro s t htop hknows
  obtain ⟨hs, hK⟩ := hkept s t htop hknows
  have hold : m.knows s t = true := by
    rw [HopMemo.knows, ← hsame s t hs hK]
    exact hknows
  obtain ⟨route, hroute⟩ := hm s t hs hold
  refine ⟨route, hroute.congr ?_⟩
  -- along the route every file is imported by the one before it, so all of it is kept
  clear hold hknows htop
  induction hroute with
  | @last s hfind =>
    intro x hx
    rw [List.mem_singleton.mp hx]
    exact hsame s t hs hK
  | @hop s next rest hfind _ _ _ ih =>
    have hedge : g.TopEdge s next := (htruth _ (mem_of_find? hfind) hs).1
    intro x hx
    rcases List.mem_cons.mp hx with rfl | hx
    · exact hsame x t hs hK
    · exact ih hedge.target (hclosed s next t hedge hK) x hx

end Graph

end ScopeGraph
