/-
  File:      ScopeGraph/Proofs/RepeatedWalk.lean
  Subject:   A file that asks again is answered as before.

  With depth enough the walk from file to file finds every way, and its answer is a
  matter of imports alone. With less depth it hangs on the memo too: a hop that
  another file asked for may shorten the way. What one file asks does not change
  what it is answered, whatever the depth:

  * whether the walk to a target finds a way depends on the memo only by the files
    of which a hop to this target is known, and the more of them the better
    (`HopMemo.HopsAmong`, `Graph.Even`);
  * a walk that finds no way adds no such file, and one that finds a way makes its
    own hop known;
  * `Graph.Steadfast`: what the memo makes the walk answer to one file. No question
    of this file for another one changes it (`Graph.yields_steadfast`).
-/
import ScopeGraph.Proofs.ImportWalk

namespace ScopeGraph

/-! ## 1. Known hops -/

namespace HopMemo

/-- Whether the memo has a hop from a source to a target. -/
def knows (m : HopMemo) (s t : TopId) : Bool := (m.find? s t).join.isSome

/-- Two memos have hops to a target from the same sources. -/
def SameHops (t : TopId) (m m' : HopMemo) : Prop := ∀ s, m.knows s t = m'.knows s t

/-- The sources from which a memo has a hop to a target are among those of another. -/
def HopsAmong (t : TopId) (m m' : HopMemo) : Prop :=
  ∀ s, m.knows s t = true → m'.knows s t = true

theorem find?_store (m : HopMemo) (s t : TopId) (hop : Option TopId) (s' t' : TopId) :
    (m.store s t hop).find? s' t' = if s = s' ∧ t = t' then some hop else m.find? s' t' := by
  unfold store find?
  rw [List.find?_cons]
  by_cases h : s = s' ∧ t = t'
  · simp [h]
  · simp [h]

theorem knows_store_self (m : HopMemo) (s t : TopId) (hop : Option TopId) :
    (m.store s t hop).knows s t = hop.isSome := by
  unfold knows
  rw [find?_store, if_pos ⟨rfl, rfl⟩]
  rfl

theorem find?_store_of_ne (m : HopMemo) {s t s' t' : TopId} (hop : Option TopId)
    (h : ¬ (s = s' ∧ t = t')) : (m.store s t hop).find? s' t' = m.find? s' t' := by
  rw [find?_store, if_neg h]

theorem SameHops.refl (t : TopId) (m : HopMemo) : SameHops t m m := fun _ => rfl

theorem SameHops.hopsAmong {t : TopId} {m m' : HopMemo} (h : SameHops t m m') :
    HopsAmong t m m' := by
  intro s hs
  rw [← h s]
  exact hs

theorem hopsAmong_empty (t : TopId) (m : HopMemo) : HopsAmong t {} m := by
  intro s hs
  cases hs

end HopMemo

/-! ## 2. Walks that depend on known hops -/

namespace Graph

open Query HopMemo

/-- **A walk to a target that depends on the memo by the known hops only**: it says
    nothing of other targets, it makes no hop known if it finds no way, and with more
    hops known it finds every way that it finds with fewer. -/
structure Even (g : Graph) (t : TopId) (q : Query Hop) : Prop where
  others : ∀ m s t', t' ≠ t → (q.memoAfter m).find? s t' = m.find? s t'
  frugal : ∀ m, (q.answer m).found = false → SameHops t m (q.memoAfter m)
  grows : ∀ m m', g.Coherent m → g.Coherent m' → HopsAmong t m m' →
    (q.answer m).found = true → (q.answer m').found = true

variable {g : Graph} {t : TopId}

/-- From coherent memos with the same hops a way is found or not alike. -/
theorem Even.agrees {q : Query Hop} (h : g.Even t q) {m m' : HopMemo} (hm : g.Coherent m)
    (hm' : g.Coherent m') (hsame : SameHops t m m') :
    (q.answer m).found = (q.answer m').found := by
  have hback : SameHops t m' m := fun s => (hsame s).symm
  exact Bool.eq_iff_iff.mpr
    ⟨h.grows m m' hm hm' hsame.hopsAmong, h.grows m' m hm' hm hback.hopsAmong⟩

theorem even_pure (hop : Hop) : g.Even t (pure hop) :=
  ⟨fun _ _ _ _ => rfl, fun m _ => .refl t m, fun _ _ _ _ _ h => h⟩

theorem Even.warn {q : Query Hop} (h : g.Even t q) (x : Warning) :
    g.Even t (Query.warn x >>= fun _ => q) :=
  ⟨h.others, h.frugal, h.grows⟩

/-- What becomes of the result of a walk does not matter, if a way stays a way. -/
theorem Even.map {q : Query Hop} (h : g.Even t q) {f : Hop → Hop}
    (hf : ∀ hop, (f hop).found = hop.found) : g.Even t (q >>= fun hop => pure (f hop)) where
  others := h.others
  frugal m hm := h.frugal m ((hf _).symm.trans hm)
  grows m m' hm hm' hmore hfound := by
    rw [answer_bind] at hfound ⊢
    exact (hf _).trans (h.grows m m' hm hm' hmore ((hf _).symm.trans hfound))

theorem found_cut (hop : Hop) : hop.cut.found = hop.found := by cases hop <;> rfl

theorem found_after (earlier : Bool) (hop : Hop) : (hop.after earlier).found = hop.found := by
  cases hop <;> rfl

/-- A walk, and if it finds no way another one. -/
theorem Even.orElse {q rest : Query Hop} {f : Hop → Query Hop} {next : TopId} (hq : g.Even t q)
    (hkeeps : Keeps g.Coherent q) (hrest : g.Even t rest)
    (hvia : ∀ later, f (.via later) = pure (.via next))
    (habsent : ∀ c, f (.absent c) = rest >>= fun hop => pure (hop.after c)) :
    g.Even t (q >>= f) := by
  have hrest' : ∀ c, g.Even t (f (.absent c)) := by
    intro c
    rw [habsent]
    exact hrest.map (found_after c)
  refine ⟨fun m s t' hne => ?_, fun m hf => ?_, fun m m' hm hm' hmore hf => ?_⟩
  · rw [memoAfter_bind]
    cases ha : q.answer m with
    | via later =>
      rw [hvia]
      exact hq.others m s t' hne
    | absent c => exact ((hrest' c).others _ s t' hne).trans (hq.others m s t' hne)
  · rw [answer_bind] at hf
    rw [memoAfter_bind]
    cases ha : q.answer m with
    | via later =>
      rw [ha, hvia] at hf
      cases hf
    | absent c =>
      rw [ha] at hf
      have hfirst := hq.frugal m (by rw [ha]; rfl)
      exact fun s => (hfirst s).trans ((hrest' c).frugal _ hf s)
  · rw [answer_bind] at hf ⊢
    cases ha' : q.answer m' with
    | via later' =>
      rw [hvia]
      rfl
    | absent c' =>
      cases ha : q.answer m with
      | via later =>
        have hfirst := hq.grows m m' hm hm' hmore (by rw [ha]; rfl)
        rw [ha'] at hfirst
        cases hfirst
      | absent c =>
        -- neither walk made a hop known, so the second walk still has the more of them
        have hleft := hq.frugal m (by rw [ha]; rfl)
        have hright := hq.frugal m' (by rw [ha']; rfl)
        have hmore' : HopsAmong t (q.memoAfter m) (q.memoAfter m') := by
          intro s hs
          rw [← hright s]
          exact hmore s (by rw [hleft s]; exact hs)
        rw [ha, habsent, answer_bind] at hf
        rw [habsent, answer_bind]
        have hrest := hrest.grows _ _ (hkeeps m hm).2 (hkeeps m' hm').2 hmore'
          ((found_after c _).symm.trans hf)
        exact (found_after c' _).trans hrest

theorem even_firstHop {inside : List TopId} {visit : TopId → Query Hop}
    (hvisit : ∀ next, g.IsTop next → g.Even t (visit next))
    (hkeeps : ∀ next, Keeps g.Coherent (visit next)) (imports : List Import) :
    g.Even t (g.firstHop t inside visit imports) := by
  induction imports with
  | nil => exact even_pure _
  | cons i rest ih =>
    unfold firstHop
    cases ht : g.top? i.context with
    | none => exact ih.warn _
    | some next =>
      dsimp only
      split
      · exact even_pure _
      · split
        · exact ih.map found_cut
        · exact (hvisit next (isTop_of_top? ht).2).orElse (hkeeps next) ih (fun _ => rfl)
            fun _ => rfl

/-! ## 3. What the memo holds, and what it is given -/

/-- What is remembered of the result of a walk. -/
def lasting : Hop → Option (Option TopId)
  | .via next => some (some next)
  | .absent true => some none
  | .absent false => none

section Recall

variable {s : TopId} {search : Query Hop} {m : HopMemo}

theorem recallOr_of_some {hop : Option TopId} (h : m.find? s t = some hop) :
    (recallOr s t search).answer m = .ofMemo hop ∧ (recallOr s t search).memoAfter m = m := by
  unfold recallOr
  rw [answer_bind, memoAfter_bind]
  have hanswer : (remembered s t).answer m = some hop := h
  rw [hanswer]
  exact ⟨rfl, rfl⟩

theorem recallOr_of_none (h : m.find? s t = none) :
    (recallOr s t search).answer m = search.answer m ∧
      (recallOr s t search).memoAfter m =
        (lasting (search.answer m)).elim (search.memoAfter m) ((search.memoAfter m).store s t) := by
  unfold recallOr
  rw [answer_bind, memoAfter_bind]
  have hanswer : (remembered s t).answer m = none := h
  have hmemo : (remembered s t).memoAfter m = m := rfl
  rw [hanswer, hmemo]
  dsimp only
  rw [answer_bind, memoAfter_bind]
  cases ha : search.answer m with
  | via next => exact ⟨rfl, rfl⟩
  | absent complete => cases complete <;> exact ⟨rfl, rfl⟩

/-- A way that is found is known afterwards. -/
theorem knows_recallOr (hf : ((recallOr s t search).answer m).found = true) :
    ((recallOr s t search).memoAfter m).knows s t = true := by
  cases hm : m.find? s t with
  | some hop =>
    obtain ⟨ha, hafter⟩ := recallOr_of_some hm
    rw [ha] at hf
    rw [hafter]
    unfold knows
    rw [hm]
    cases hop with
    | some next => rfl
    | none => cases hf
  | none =>
    obtain ⟨ha, hafter⟩ := recallOr_of_none hm
    rw [ha] at hf
    rw [hafter]
    cases hs : search.answer m with
    | via next => exact knows_store_self _ s t (some next)
    | absent complete =>
      rw [hs] at hf
      cases hf

/-- A way that is known is found. -/
theorem found_recallOr (hk : m.knows s t = true) :
    ((recallOr s t search).answer m).found = true := by
  unfold knows at hk
  cases hm : m.find? s t with
  | none =>
    rw [hm] at hk
    cases hk
  | some hop =>
    rw [(recallOr_of_some hm).1]
    cases hop with
    | some next => rfl
    | none =>
      rw [hm] at hk
      cases hk

/-- **A remembered walk is even if the walk is**: a remembered failure is true, so no
    sound walk would find a way in its place. -/
theorem even_recallOr (hs : g.IsTop s) (h : g.Even t search)
    (hsound : Yields g.Coherent (g.Sound s t) search) : g.Even t (recallOr s t search) := by
  refine ⟨fun m s' t' hne => ?_, fun m hf s' => ?_, fun m m' hm hm' hmore hf => ?_⟩
  · cases hf : m.find? s t with
    | some hop => rw [(recallOr_of_some hf).2]
    | none =>
      rw [(recallOr_of_none hf).2, ← h.others m s' t' hne]
      cases lasting (search.answer m) with
      | none => rfl
      | some hop => exact find?_store_of_ne _ hop fun e => hne e.2.symm
  · cases hfind : m.find? s t with
    | some hop => rw [(recallOr_of_some hfind).2]
    | none =>
      obtain ⟨ha, hafter⟩ := recallOr_of_none hfind
      rw [ha] at hf
      rw [hafter]
      have hsearch := h.frugal m hf s'
      cases hres : search.answer m with
      | via next =>
        rw [hres] at hf
        cases hf
      | absent complete =>
        cases complete with
        | false => exact hsearch
        | true =>
          show _ = ((search.memoAfter m).store s t none).knows s' t
          by_cases hss : s = s'
          · subst hss
            rw [knows_store_self]
            unfold knows
            rw [hfind]
            rfl
          · rw [hsearch]
            unfold knows
            rw [find?_store_of_ne _ _ fun e => hss e.1]
  · cases hfind : m.find? s t with
    | some hop =>
      rw [(recallOr_of_some hfind).1] at hf
      cases hop with
      | none => cases hf
      | some next =>
        have hk : m.knows s t = true := by
          unfold knows
          rw [hfind]
          rfl
        exact found_recallOr (hmore s hk)
    | none =>
      rw [(recallOr_of_none hfind).1] at hf
      cases hfind' : m'.find? s t with
      | none =>
        rw [(recallOr_of_none hfind').1]
        exact h.grows m m' hm hm' hmore hf
      | some hop =>
        rw [(recallOr_of_some hfind').1]
        cases hop with
        | some next => rfl
        | none =>
          -- the other memo holds that there is no way, but one was found
          have hno : ¬ g.TopPath s t := hm'.truthful _ (mem_of_find? hfind') hs
          have hway := (hsound m hm).1
          cases hres : search.answer m with
          | absent complete =>
            rw [hres] at hf
            cases hf
          | via next =>
            rw [hres] at hway
            exact absurd (hway.2 hs).path hno

end Recall

/-! ## 4. The whole walk -/

/-- **The walk from a file depends on the known hops only.** -/
theorem even_reach (depth : Nat) (inside : List TopId) {s : TopId} (hs : g.IsTop s) :
    g.Even t (g.reach t depth inside s) := by
  induction depth generalizing inside s with
  | zero => exact even_recallOr hs ((even_pure _).warn _) fun m hm => ⟨trivial, hm⟩
  | succ n ih =>
    refine even_recallOr hs ?_
      ((yields_hopFrom fun next => yields_reach t n (s :: inside) next).mono fun _ h => h.sound)
    obtain ⟨data, hdata, _⟩ := isTop_iff.mp hs
    unfold hopFrom
    rw [hdata]
    exact even_firstHop (fun next hnext => ih (s :: inside) hnext)
      (fun next => (yields_reach t n (s :: inside) next).keeps) data.imports

/-- A file that found a way finds one again. -/
theorem found_again (depth : Nat) (inside : List TopId) (s : TopId) {m : HopMemo}
    (hf : ((g.reach t depth inside s).answer m).found = true) :
    ((g.reach t depth inside s).answer ((g.reach t depth inside s).memoAfter m)).found = true := by
  cases depth <;> exact found_recallOr (knows_recallOr hf)

/-- The memo tells the truth, and makes the walk answer `told` to a file. -/
def Steadfast (g : Graph) (a : TopId) (told : TopId → Bool) (m : HopMemo) : Prop :=
  g.Coherent m ∧ ∀ t, (g.importsTop a t).answer m = told t

/-- **What a file asks does not change what it is answered.** -/
theorem yields_steadfast {a : TopId} (ha : g.IsTop a) (told : TopId → Bool) (t : TopId) :
    Yields (g.Steadfast a told) (· = told t) (g.importsTop a t) := by
  rintro m ⟨hm, htold⟩
  have heven : ∀ t, g.Even t (g.hopTowards a t) := fun t => even_reach _ [] ha
  have hafter : (g.importsTop a t).memoAfter m = (g.hopTowards a t).memoAfter m := rfl
  have hm' := (keeps_hopTowards a t m hm).2
  rw [hafter]
  refine ⟨htold t, hm', fun t' => ?_⟩
  have hsame : SameHops t' m ((g.hopTowards a t).memoAfter m) →
      (g.importsTop a t').answer ((g.hopTowards a t).memoAfter m) = told t' := by
    intro hhops
    rw [← htold t']
    exact ((heven t').agrees hm hm' hhops).symm
  by_cases ht : t' = t
  · subst ht
    cases hf : (g.importsTop a t').answer m with
    | false => exact hsame ((heven t').frugal m hf)
    | true =>
      rw [← htold t', hf]
      exact found_again _ [] a hf
  · refine hsame fun s => ?_
    unfold knows
    rw [(heven t).others m s t' ht]

end Graph

end ScopeGraph
