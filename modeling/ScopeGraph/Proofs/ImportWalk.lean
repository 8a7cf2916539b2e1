/-
  File:      ScopeGraph/Proofs/ImportWalk.lean
  Subject:   The walk from file to file tells the truth, and all of it.

  The walk takes answers from the memo and puts its own there, it skips the
  files it is inside of, and it stops at a depth. Two things hold of it
  nevertheless (`yields_reach`):

  * what it finds is so, and what it says is absent after a complete search
    is absent. So a memo that tells the truth goes on telling it;
  * if the depth leaves room for all live tops, an absent answer means that
    there is no way outside of the files the walk is inside of. The skipped
    files lose nothing: of every way there is one through no file twice.
-/
import ScopeGraph.Proofs.ImportPaths
import ScopeGraph.Proofs.Questions

namespace ScopeGraph

/-! ## 1. What the memo should say -/

namespace Graph

variable (g : Graph)

/-- A hop from a source to a target is what it should be: a file that the
    source imports and that is the target or leads to it, or no hop if there is
    no way. -/
def Leads (s t : TopId) : Option TopId → Prop
  | some next => g.TopEdge s next ∧ (next = t ∨ g.TopPath next t)
  | none => ¬ g.TopPath s t

/-- What the memo says of live tops is so. -/
def Truthful (m : HopMemo) : Prop :=
  ∀ e ∈ m.entries, g.IsTop e.source → g.Leads e.source e.target e.hop

/-- Of sources that were never there the memo knows no hop. -/
def Grounded (m : HopMemo) : Prop :=
  ∀ e ∈ m.entries, e.hop.isSome → g.contexts.Issued e.source.context

/-- **The memo tells the truth**, and it has no hop from what was never
    there. -/
structure Coherent (m : HopMemo) : Prop where
  truthful : g.Truthful m
  grounded : g.Grounded m

variable {g}

theorem Leads.path {s t : TopId} {next : TopId} (h : g.Leads s t (some next)) : g.TopPath s t := by
  obtain ⟨he, rfl | hp⟩ := h
  · exact .single he
  · exact .head he hp

/-- The entry behind an answer of the memo. -/
theorem mem_of_find? {m : HopMemo} {s t : TopId} {hop : Option TopId}
    (h : m.find? s t = some hop) : (⟨s, t, hop⟩ : HopEntry) ∈ m.entries := by
  unfold HopMemo.find? at h
  obtain ⟨e, he, rfl⟩ := Option.map_eq_some_iff.mp h
  have hst := List.find?_some he
  obtain ⟨rfl, rfl⟩ := of_decide_eq_true hst
  exact List.mem_of_find?_eq_some he

theorem Coherent.store {m : HopMemo} {s t : TopId} {hop : Option TopId} (hm : g.Coherent m)
    (ht : g.IsTop s → g.Leads s t hop) (hi : hop.isSome → g.contexts.Issued s.context) :
    g.Coherent (m.store s t hop) where
  truthful e he := by
    rcases List.mem_cons.mp he with rfl | he
    · exact ht
    · exact hm.truthful e he
  grounded e he := by
    rcases List.mem_cons.mp he with rfl | he
    · exact hi
    · exact hm.grounded e he

end Graph

/-! ## 2. Ways outside of some files -/

namespace Graph

/-- A path of imports whose files between source and target are none of
    `inside`. -/
inductive PathOutside (g : Graph) (inside : List TopId) : TopId → TopId → Prop where
  | edge {s t : TopId} : g.TopEdge s t → PathOutside g inside s t
  | cons {s next t : TopId} :
      g.TopEdge s next → next ∉ inside → PathOutside g inside next t → PathOutside g inside s t

variable {g : Graph} {inside : List TopId}

theorem PathOutside.topPath {s t : TopId} (h : g.PathOutside inside s t) : g.TopPath s t := by
  induction h with
  | edge he => exact .single he
  | cons he _ _ ih => exact .head he ih

theorem TopPath.pathOutside {s t : TopId} (h : g.TopPath s t) : g.PathOutside [] s t := by
  induction h using Relation.TransGen.head_induction_on with
  | single he => exact .edge he
  | head he _ ih => exact .cons he List.not_mem_nil ih

/-- A path goes round a file, or the rest of it from the file on does. -/
theorem PathOutside.around {x t : TopId} (s : TopId) (h : g.PathOutside inside x t) :
    g.PathOutside (s :: inside) x t ∨ g.PathOutside (s :: inside) s t := by
  induction h with
  | edge he => exact .inl (.edge he)
  | @cons x next t he hout _ ih =>
    rcases ih with hnext | hs
    · by_cases hn : next = s
      · subst hn
        exact .inr hnext
      · exact .inl (.cons he (List.not_mem_cons_of_ne_of_not_mem hn hout) hnext)
    · exact .inr hs

/-- A path need not come back to where it starts. -/
theorem PathOutside.simple {s t : TopId} (h : g.PathOutside inside s t) :
    g.PathOutside (s :: inside) s t :=
  (h.around s).elim id id

/-- Of a list of tops without repetition there are no more than live tops. -/
theorem length_le_tops {ts : List TopId} (hnd : ts.Nodup) (ht : ∀ t ∈ ts, g.IsTop t) :
    ts.length ≤ g.tops.length :=
  (hnd.subperm fun t h => mem_tops_iff.mpr (ht t h)).length_le

end Graph

/-! ## 3. The parts of the walk -/

namespace Query

variable {P : HopMemo → Prop} {Q : Hop → Prop}

theorem yields_recallOr {s t : TopId} {search : Query Hop} (hsearch : Yields P Q search)
    (hrecall : ∀ m hop, P m → m.find? s t = some hop → Q (.ofMemo hop))
    (hvia : ∀ m next, P m → Q (.via next) → P (m.store s t (some next)))
    (habsent : ∀ m, P m → Q (.absent true) → P (m.store s t none)) :
    Yields P Q (Graph.recallOr s t search) := by
  intro m hm
  unfold Graph.recallOr
  rw [answer_bind, memoAfter_bind]
  have hanswer : (remembered s t).answer m = m.find? s t := rfl
  have hmemo : (remembered s t).memoAfter m = m := rfl
  rw [hanswer, hmemo]
  cases hf : m.find? s t with
  | some hop => exact ⟨hrecall m hop hm hf, hm⟩
  | none =>
    dsimp only
    rw [answer_bind, memoAfter_bind]
    obtain ⟨hq, hm'⟩ := hsearch m hm
    cases ha : search.answer m with
    | via next =>
      rw [ha] at hq
      exact ⟨hq, hvia _ next hm' hq⟩
    | absent complete =>
      rw [ha] at hq
      cases complete with
      | true => exact ⟨hq, habsent _ hm' hq⟩
      | false => exact ⟨hq, hm'⟩

end Query

namespace Graph

variable (g : Graph)

/-- What the first hop over a list of imports says, where `V` is what is known
    of the walk from the next file on. -/
def FirstHop (target : TopId) (inside : List TopId) (V : TopId → Hop → Prop)
    (imports : List Import) : Hop → Prop
  | .via next => (∃ i ∈ imports, g.top? i.context = some next) ∧
      (next = target ∨ ∃ later, V next (.via later))
  | .absent complete => ∀ i ∈ imports, ∀ next, g.top? i.context = some next →
      next ≠ target ∧ (next ∈ inside ∧ complete = false ∨
        next ∉ inside ∧ ∃ c, V next (.absent c) ∧ (complete = true → c = true))

variable {g} {target : TopId} {inside : List TopId}

theorem yields_firstHop {P : HopMemo → Prop} {V : TopId → Hop → Prop} {visit : TopId → Query Hop}
    (hvisit : ∀ next, g.IsTop next → next ∉ inside → Query.Yields P (V next) (visit next))
    (imports : List Import) :
    Query.Yields P (g.FirstHop target inside V imports)
      (g.firstHop target inside visit imports) := by
  induction imports with
  | nil => exact Query.yields_pure fun i hi => absurd hi List.not_mem_nil
  | cons i rest ih =>
    -- an import that is skipped or fails adds its own part to the failure
    have skip : ∀ complete : Bool,
        (∀ next, g.top? i.context = some next → next ≠ target ∧
          (next ∈ inside ∧ complete = false ∨
            next ∉ inside ∧ ∃ c, V next (.absent c) ∧ (complete = true → c = true))) →
        ∀ hop, g.FirstHop target inside V rest hop →
          g.FirstHop target inside V (i :: rest) (hop.after complete) := by
      intro complete hi hop hrest
      cases hop with
      | via next =>
        obtain ⟨⟨j, hj, hn⟩, h⟩ := hrest
        exact ⟨⟨j, List.mem_cons_of_mem i hj, hn⟩, h⟩
      | absent later =>
        intro j hj next hn
        rcases List.mem_cons.mp hj with rfl | hj
        · obtain ⟨hne, hin | ⟨hout, c, hv, hc⟩⟩ := hi next hn
          · exact ⟨hne, .inl ⟨hin.1, by rw [hin.2]; rfl⟩⟩
          · exact ⟨hne, .inr ⟨hout, c, hv, fun h => hc (by simp_all)⟩⟩
        · obtain ⟨hne, hin | ⟨hout, c, hv, hc⟩⟩ := hrest j hj next hn
          · exact ⟨hne, .inl ⟨hin.1, by rw [hin.2, Bool.and_false]⟩⟩
          · exact ⟨hne, .inr ⟨hout, c, hv, fun h => hc (by simp_all)⟩⟩
    unfold firstHop
    cases ht : g.top? i.context with
    | none =>
      refine (Query.yields_warn _).bind fun _ _ => ih.mono fun hop hrest => ?_
      have h := skip true (fun next hn => by rw [ht] at hn; cases hn) hop hrest
      cases hop <;> exact h
    | some next =>
      have htop := (isTop_of_top? ht).2
      dsimp only
      by_cases he : next = target
      · rw [if_pos he]
        exact Query.yields_pure ⟨⟨i, List.mem_cons_self, ht⟩, .inl he⟩
      · rw [if_neg he]
        by_cases hin : next ∈ inside
        · rw [if_pos hin]
          refine ih.bind fun hop hrest => Query.yields_pure ?_
          have h := skip false
            (fun x hx => by rw [ht] at hx; cases hx; exact ⟨he, .inl ⟨hin, rfl⟩⟩) hop hrest
          cases hop <;> exact h
        · rw [if_neg hin]
          refine (hvisit next htop hin).bind fun hop hv => ?_
          cases hop with
          | via later => exact Query.yields_pure ⟨⟨i, List.mem_cons_self, ht⟩, .inr ⟨later, hv⟩⟩
          | absent complete =>
            refine ih.bind fun hop hrest => Query.yields_pure ?_
            exact skip complete (fun x hx => by
              rw [ht] at hx
              cases hx
              exact ⟨he, .inr ⟨hin, complete, hv, id⟩⟩) hop hrest

/-! ## 4. The whole walk -/

variable (g)

/-- The result of a walk is so. -/
def Sound (s t : TopId) : Hop → Prop
  | .via next => g.contexts.Issued s.context ∧ (g.IsTop s → g.Leads s t (some next))
  | .absent true => g.IsTop s → g.Leads s t none
  | .absent false => True

/-- There is depth enough for all live tops that a walk is not inside of. -/
structure Room (depth : Nat) (inside : List TopId) (s : TopId) : Prop where
  tops : ∀ t ∈ s :: inside, g.IsTop t
  nodup : (s :: inside).Nodup
  depth : g.tops.length ≤ depth + inside.length

/-- What a walk says: what it says is so, and with depth enough it finds every
    way outside of the files it is inside of. -/
structure Tells (t : TopId) (depth : Nat) (inside : List TopId) (s : TopId) (hop : Hop) :
    Prop where
  sound : g.Sound s t hop
  complete : g.Room depth inside s → hop.found = false → ¬ g.PathOutside (s :: inside) s t

variable {g} {depth : Nat} {s : TopId}

/-- Without depth there is no room. -/
theorem not_room_zero : ¬ g.Room 0 inside s := by
  intro h
  have hle := length_le_tops h.nodup h.tops
  have hd := h.depth
  rw [List.length_cons] at hle
  omega

theorem Room.next {next : TopId} (h : g.Room (depth + 1) inside s) (ht : g.IsTop next)
    (hout : next ∉ s :: inside) : g.Room depth (s :: inside) next where
  tops t hmem := by
    rcases List.mem_cons.mp hmem with rfl | hmem
    · exact ht
    · exact h.tops t hmem
  nodup := List.nodup_cons.mpr ⟨hout, h.nodup⟩
  depth := by
    have hd := h.depth
    rw [List.length_cons]
    omega

/-- The import of a file that an edge from it stands for. -/
theorem TopEdge.exists_import {data : Context} {next : TopId} (he : g.TopEdge s next)
    (hc : g.context? s.context = some data) :
    ∃ i ∈ data.imports, g.top? i.context = some next := by
  obtain ⟨_, hc', hi⟩ := he.imports
  cases hc.symm.trans hc'
  obtain ⟨i, himp, hctx⟩ := List.mem_map.mp (importsDirectly_iff.mp hi)
  refine ⟨i, himp, ?_⟩
  rw [hctx]
  exact he.target

theorem sound_of_firstHop {data : Context} {V : TopId → Hop → Prop} {hop : Hop}
    (hc : g.context? s.context = some data) (hV : ∀ next hop, V next hop → g.Sound next target hop)
    (h : g.FirstHop target (s :: inside) V data.imports hop) : g.Sound s target hop := by
  cases hop with
  | via next =>
    obtain ⟨⟨i, hi, htop⟩, hnext⟩ := h
    obtain ⟨hctx, ht⟩ := isTop_of_top? htop
    refine ⟨Store.issued_of_get? hc, fun hs => ⟨⟨hs, ht, data, hc, ?_⟩, ?_⟩⟩
    · exact importsDirectly_iff.mpr (List.mem_map.mpr ⟨i, hi, hctx.symm⟩)
    · rcases hnext with rfl | ⟨later, hv⟩
      · exact .inl rfl
      · exact .inr ((hV next _ hv).2 ht).path
  | absent complete =>
    cases complete with
    | false => trivial
    | true =>
      intro hs hpath
      obtain ⟨next, he, hrest⟩ := Relation.TransGen.head'_iff.mp hpath
      obtain ⟨i, himp, htop⟩ := he.exists_import hc
      obtain ⟨hne, hin | ⟨_, c, hv, hc⟩⟩ := h i himp next htop
      · cases hin.2
      · cases hc rfl
        rcases Relation.reflTransGen_iff_eq_or_transGen.mp hrest with heq | hpath
        · exact hne heq.symm
        · exact (hV next _ hv) he.target hpath

theorem complete_of_firstHop {data : Context} {hop : Hop} (hc : g.context? s.context = some data)
    (h : g.FirstHop target (s :: inside) (g.Tells target depth (s :: inside)) data.imports hop)
    (hroom : g.Room (depth + 1) inside s) (hf : hop.found = false) :
    ¬ g.PathOutside (s :: inside) s target := by
  cases hop with
  | via next => cases hf
  | absent complete =>
    -- what the walk knows of a file that the source imports
    have hnext : ∀ next, g.TopEdge s next → next ≠ target ∧ (next ∈ s :: inside ∨
        next ∉ s :: inside ∧ ∃ c, g.Tells target depth (s :: inside) next (.absent c)) := by
      intro next he
      obtain ⟨i, himp, htop⟩ := he.exists_import hc
      obtain ⟨hne, hin | ⟨hout, c, hv, _⟩⟩ := h i himp next htop
      · exact ⟨hne, .inl hin.1⟩
      · exact ⟨hne, .inr ⟨hout, c, hv⟩⟩
    intro hpath
    cases hpath with
    | edge he => exact (hnext _ he).1 rfl
    | cons he hout hrest =>
      obtain ⟨_, hin | ⟨_, c, hv⟩⟩ := hnext _ he
      · exact hout hin
      · exact hv.complete (hroom.next he.target hout) rfl hrest.simple

/-- What the walk takes from the memo, and what it puts there. -/
theorem yields_remembering {search : Query Hop}
    (h : Query.Yields g.Coherent (g.Tells target depth inside s) search) :
    Query.Yields g.Coherent (g.Tells target depth inside s) (recallOr s target search) := by
  refine Query.yields_recallOr h (fun m hop hm hf => ?_) (fun m next hm hq => ?_)
    (fun m hm hq => ?_)
  · have hmem := mem_of_find? hf
    cases hop with
    | some next =>
      refine ⟨⟨hm.grounded _ hmem rfl, hm.truthful _ hmem⟩, fun _ h => ?_⟩
      cases h
    | none =>
      refine ⟨hm.truthful _ hmem, fun hroom _ hpath => ?_⟩
      exact hm.truthful _ hmem (hroom.tops s List.mem_cons_self) hpath.topPath
  · exact hm.store hq.sound.2 fun _ => hq.sound.1
  · exact hm.store hq.sound fun h => by cases h

/-- What the walk over the imports of a file says, if the walks from the next files
    on say it. -/
theorem yields_hopFrom {visit : TopId → Query Hop} (hvisit : ∀ next,
      Query.Yields g.Coherent (g.Tells target depth (s :: inside) next) (visit next)) :
    Query.Yields g.Coherent (g.Tells target (depth + 1) inside s)
      (g.hopFrom target (s :: inside) visit s) := by
  unfold hopFrom
  cases hc : g.context? s.context with
  | none =>
    have hs : ¬ g.IsTop s := by
      intro hs
      obtain ⟨data, hd, _⟩ := isTop_iff.mp hs
      rw [hc] at hd
      cases hd
    refine (Query.yields_warn _).bind fun _ _ => Query.yields_pure ?_
    exact ⟨fun h => absurd h hs, fun hroom => absurd (hroom.tops s List.mem_cons_self) hs⟩
  | some data =>
    refine (yields_firstHop (fun next _ _ => hvisit next) data.imports).mono ?_
    intro hop h
    exact ⟨sound_of_firstHop hc (fun _ _ hv => hv.sound) h, complete_of_firstHop hc h⟩

/-- **The walk tells the truth, and with depth enough all of it.** -/
theorem yields_reach (target : TopId) (depth : Nat) (inside : List TopId) (s : TopId) :
    Query.Yields g.Coherent (g.Tells target depth inside s) (g.reach target depth inside s) := by
  induction depth generalizing inside s with
  | zero =>
    refine yields_remembering ((Query.yields_warn _).bind fun _ _ => Query.yields_pure ?_)
    exact ⟨trivial, fun hroom => absurd hroom not_room_zero⟩
  | succ n ih => exact yields_remembering (yields_hopFrom (ih (s :: inside)))

/-- Imports lead to a target that the walk has found. -/
theorem Tells.path {target s : TopId} {hop : Hop} (h : g.Tells target depth inside s hop)
    (hs : g.IsTop s) (hf : hop.found = true) : g.TopPath s target := by
  cases hop with
  | via next => exact (h.sound.2 hs).path
  | absent complete => cases hf

/-- A file that is found to import another one does so, whatever the depth. -/
theorem yields_topPath {s : TopId} (hs : g.IsTop s) (t : TopId) :
    Query.Yields g.Coherent (fun b => b = true → g.TopPath s t) (g.importsTop s t) := by
  unfold importsTop hopTowards
  exact (yields_reach t _ [] s).bind fun hop h => Query.yields_pure (h.path hs)

theorem path_of_importsTop {s t : TopId} {m : HopMemo} (hs : g.IsTop s) (hm : g.Coherent m)
    (h : (g.importsTop s t).answer m = true) : g.TopPath s t :=
  (yields_topPath hs t m hm).1 h

/-- **A file imports another exactly if imports lead from the one to the
    other**, if the depth is as large as the number of files. -/
theorem yields_importsTop (hd : g.tops.length ≤ g.limits.importDepth) {s : TopId}
    (hs : g.IsTop s) (t : TopId) :
    Query.Yields g.Coherent (fun b => b = true ↔ g.TopPath s t) (g.importsTop s t) := by
  unfold importsTop hopTowards
  refine (yields_reach t _ [] s).bind fun hop h => Query.yields_pure ?_
  have hroom : g.Room g.limits.importDepth [] s := by
    refine ⟨fun x hx => ?_, List.nodup_singleton s, hd⟩
    rw [List.mem_singleton.mp hx]
    exact hs
  refine ⟨h.path hs, fun hpath => ?_⟩
  cases hf : hop.found with
  | true => rfl
  | false => exact absurd hpath.pathOutside.simple (h.complete hroom hf)

theorem keeps_hopTowards (s t : TopId) : Query.Keeps g.Coherent (g.hopTowards s t) :=
  (yields_reach t _ [] s).keeps

end Graph

end ScopeGraph
