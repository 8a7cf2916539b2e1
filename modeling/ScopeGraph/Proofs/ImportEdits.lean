/-
  File:      ScopeGraph/Proofs/ImportEdits.lean
  Subject:   Every edit keeps both ends of the imports in step and the memo
             true.

  * `Truthful.of_agree`: if the edges of two graphs are the same from a set of
    files on that no edge leaves, what is true of the files of the set in the
    one graph is true in the other.
  * `truthful_forgetImportsOf`, `routed_forgetImportsOf`: after a change of one
    file's imports it is enough to forget the file and all from which imports
    lead to it.
  * `Workspace.Wired`: what holds of the imports alone after every edit;
    `Workspace.Linked`: what holds of imports and memo; `KeepsWired`: what a teardown does
    to them.
-/
import Mathlib.Tactic.SplitIfs
import ScopeGraph.Proofs.HopRoutes

namespace ScopeGraph

/-! ## 1. Graphs that agree on some files -/

namespace Graph

variable {g g' : Graph} {R : TopId → Prop}

theorem topPath_of_agree (hedge : ∀ x y, R x → g.TopEdge x y → g'.TopEdge x y)
    (hclosed : ∀ x y, R x → g.TopEdge x y → R y) {s t : TopId} (hs : R s) (h : g.TopPath s t) :
    g'.TopPath s t := by
  induction h using Relation.TransGen.head_induction_on with
  | single he => exact .single (hedge _ _ hs he)
  | head he _ ih => exact .head (hedge _ _ hs he) (ih (hclosed _ _ hs he))

/-- What a hop from a file of the set should be is the same in both graphs. -/
theorem leads_of_agree (hedge : ∀ x y, R x → (g'.TopEdge x y ↔ g.TopEdge x y))
    (hclosed : ∀ x y, R x → g.TopEdge x y → R y) {s t : TopId} {hop : Option TopId} (hs : R s)
    (h : g.Leads s t hop) : g'.Leads s t hop := by
  cases hop with
  | none =>
    intro hp
    exact h (topPath_of_agree (fun x y hx => (hedge x y hx).mp)
      (fun x y hx he => hclosed x y hx ((hedge x y hx).mp he)) hs hp)
  | some next =>
    obtain ⟨he, hn⟩ := h
    refine ⟨(hedge _ _ hs).mpr he, hn.imp_right fun hp => ?_⟩
    exact topPath_of_agree (fun x y hx => (hedge x y hx).mpr) hclosed (hclosed _ _ hs he) hp

theorem Truthful.of_agree {m m' : HopMemo} (hm : g.Truthful m)
    (hedge : ∀ x y, R x → (g'.TopEdge x y ↔ g.TopEdge x y))
    (hclosed : ∀ x y, R x → g.TopEdge x y → R y) (hsub : ∀ e ∈ m'.entries, e ∈ m.entries)
    (hR : ∀ e ∈ m'.entries, g'.IsTop e.source →
      g.IsTop e.source ∧ R e.source ∨ g'.Leads e.source e.target e.hop) :
    g'.Truthful m' := by
  intro e he ht
  rcases hR e he ht with ⟨htop, hr⟩ | hl
  · exact leads_of_agree hedge hclosed hr (hm e (hsub e he) htop)
  · exact hl

theorem Truthful.congr {m : HopMemo} (hm : g.Truthful m) (h : g'.links = g.links) :
    g'.Truthful m := by
  intro e he ht
  have hl := hm e he ((isTop_congr h e.source).mp ht)
  unfold Leads at hl ⊢
  rw [topPath_congr h, topEdge_congr h]
  exact hl

theorem Routed.congr {m : HopMemo} (hm : g.Routed m) (h : g'.links = g.links) : g'.Routed m :=
  hm.of_tops fun s _ hs _ => (isTop_congr h s).mp hs

/-! ## 2. The imports of one file change -/

theorem isTop_of_top?_eq (htop : ∀ x, g'.top? x = g.top? x) (t : TopId) :
    g'.IsTop t ↔ g.IsTop t := by
  unfold IsTop
  rw [htop]

section Changed

variable {c : ContextId} {m : HopMemo} (htop : ∀ x, g'.top? x = g.top? x)
  (himports : ∀ a b, a ≠ c → (g'.Imports a b ↔ g.Imports a b))

include htop himports

/-- A file from which no imports lead to the changed ones has the edges it had. -/
theorem topEdge_outside {x y : TopId} (hx : x.context ∉ g'.importersOf c) :
    g'.TopEdge x y ↔ g.TopEdge x y := by
  have hIsTop := isTop_of_top?_eq htop
  have hne : x.context ≠ c := by
    intro e
    exact hx (mem_importersOf.mpr (e ▸ .refl))
  constructor
  · exact fun e => ⟨(hIsTop x).mp e.source, (hIsTop y).mp e.target, (himports _ _ hne).mp e.imports⟩
  · exact fun e =>
      ⟨(hIsTop x).mpr e.source, (hIsTop y).mpr e.target, (himports _ _ hne).mpr e.imports⟩

/-- No edge leaves the files from which no imports lead to the changed ones. -/
theorem outside_closed (hmirror : g'.Mirrored) {x y : TopId} (hx : x.context ∉ g'.importersOf c)
    (he : g.TopEdge x y) : y.context ∉ g'.importersOf c := by
  intro hy
  have hxy : x.context ∈ g'.importers y.context :=
    mem_importers_iff.mpr ((hmirror.mirror _ _).mp ((topEdge_outside htop himports hx).mpr he).imports)
  exact hx (mem_importersOf.mpr (.head hxy (mem_importersOf.mp hy)))

/-- **To forget a file and all from which imports lead to it is enough**, if
    the imports of no other file change: from the other files no way leads to
    the changed imports. -/
theorem truthful_forgetImportsOf (hm : g.Truthful m) (hmirror : g'.Mirrored) :
    g'.Truthful (m.forgetSources ((g'.importersOf c).filterMap g'.top?)) := by
  refine hm.of_agree (R := fun t => t.context ∉ g'.importersOf c)
    (fun x y hx => topEdge_outside htop himports hx)
    (fun x y hx he => outside_closed htop himports hmirror hx he) ?_ ?_
  · intro e he
    exact List.mem_of_mem_filter he
  · intro e he ht
    refine .inl ⟨(isTop_of_top?_eq htop _).mp ht, fun hmem => ?_⟩
    have hout := of_decide_eq_true (List.mem_filter.mp he).2
    exact hout (List.mem_filterMap.mpr ⟨_, hmem, ht⟩)

/-- What is not forgotten keeps its routes. -/
theorem routed_forgetImportsOf (hm : g.Routed m) (htruth : g.Truthful m) (hmirror : g'.Mirrored) :
    g'.Routed (m.forgetSources ((g'.importersOf c).filterMap g'.top?)) := by
  refine hm.forget htruth (K := fun s _ => s.context ∉ g'.importersOf c) ?_ ?_
    fun s next _ he hs => outside_closed htop himports hmirror hs he
  · intro s t hs hknows
    refine ⟨(isTop_of_top?_eq htop s).mp hs, fun hmem => ?_⟩
    obtain ⟨next, hnext⟩ := HopMemo.knows_iff.mp hknows
    have hout := of_decide_eq_true (List.mem_filter.mp (mem_of_find? hnext)).2
    exact hout (List.mem_filterMap.mpr ⟨_, hmem, hs⟩)
  · intro s t _ hs
    refine HopMemo.find?_filter fun e _ hsource _ => ?_
    rw [decide_eq_true_iff, hsource, List.mem_filterMap]
    rintro ⟨x, hx, hxs⟩
    rw [(isTop_of_top? hxs).1] at hs
    exact hs hx

end Changed

/-- If the context whose imports change is no top, nothing need be forgotten. -/
theorem truthful_of_nonTop {m : HopMemo} {c : ContextId} (hm : g.Truthful m)
    (hc : g.top? c = none) (htop : ∀ x, g'.top? x = g.top? x)
    (himports : ∀ a b, a ≠ c → (g'.Imports a b ↔ g.Imports a b)) : g'.Truthful m := by
  have hIsTop := isTop_of_top?_eq htop
  have hne : ∀ x : TopId, g.IsTop x → x.context ≠ c := by
    intro x hx e
    unfold IsTop at hx
    rw [e, hc] at hx
    cases hx
  refine hm.of_agree (R := fun _ => True) (fun x y _ => ⟨fun e => ?_, fun e => ?_⟩)
    (fun _ _ _ _ => trivial) (fun e he => he) (fun e _ ht => .inl ⟨(hIsTop _).mp ht, trivial⟩)
  · have hx := (hIsTop x).mp e.source
    exact ⟨hx, (hIsTop y).mp e.target, (himports _ _ (hne x hx)).mp e.imports⟩
  · exact ⟨(hIsTop x).mpr e.source, (hIsTop y).mpr e.target,
      (himports _ _ (hne x e.source)).mpr e.imports⟩

/-- The context neither imports nor is imported. -/
def Isolated (g : Graph) (c : ContextId) : Prop := ∀ x, ¬ g.Imports c x ∧ ¬ g.Imports x c

theorem Isolated.congr {c : ContextId} (hc : g.Isolated c) (h : g'.links = g.links) :
    g'.Isolated c := by
  intro x
  rw [imports_congr h, imports_congr h]
  exact hc x

/-! ## 3. One import more or fewer -/

/-- A graph whose contexts are those of another one, each reworked. -/
def Reworks (g g' : Graph) (f : ContextId → Context → Context) : Prop :=
  ∀ x, g'.context? x = (g.context? x).map (f x)

variable {f : ContextId → Context → Context}

theorem Reworks.imports (h : Reworks g g' f) {a b : ContextId} :
    g'.Imports a b ↔ ∃ data, g.context? a = some data ∧ (f a data).importsDirectly b = true := by
  unfold Imports
  rw [h a]
  cases g.context? a <;> simp

theorem Reworks.importedBy (h : Reworks g g' f) {a b : ContextId} :
    g'.ImportedBy b a ↔ ∃ data, g.context? b = some data ∧ a ∈ (f b data).importers := by
  unfold ImportedBy
  rw [h b]
  cases g.context? b <;> simp

theorem Reworks.top? (h : Reworks g g' f) (hf : ∀ x data, (f x data).isTop = data.isTop)
    (x : ContextId) : g'.top? x = g.top? x := by
  unfold Graph.top?
  rw [h x]
  cases g.context? x with
  | none => rfl
  | some data =>
    dsimp only [Option.map_some]
    rw [hf]

/-! ## 4. One context more or fewer -/

section Freed

variable {c : ContextId} (h : ∀ x, g'.context? x = if x = c then none else g.context? x)

include h

theorem imports_freed {a b : ContextId} : g'.Imports a b ↔ a ≠ c ∧ g.Imports a b := by
  unfold Imports
  rw [h a]
  by_cases ha : a = c <;> simp [ha]

theorem importedBy_freed {a b : ContextId} : g'.ImportedBy b a ↔ b ≠ c ∧ g.ImportedBy b a := by
  unfold ImportedBy
  rw [h b]
  by_cases hb : b = c <;> simp [hb]

theorem isTop_freed {t : TopId} : g'.IsTop t ↔ t.context ≠ c ∧ g.IsTop t := by
  rw [isTop_iff, isTop_iff, h t.context]
  by_cases ht : t.context = c <;> simp [ht]

theorem mirrored_freed (hg : g.Mirrored) (hc : g.Isolated c) : g'.Mirrored := by
  have hold : ∀ a data, g'.context? a = some data → g.context? a = some data := by
    intro a data ha
    rw [h a] at ha
    split at ha
    · cases ha
    · exact ha
  refine ⟨fun a data ha => hg.imports_nodup a data (hold a data ha),
    fun a data ha => hg.importers_nodup a data (hold a data ha), fun a b => ?_, fun a ha => ?_⟩
  · rw [imports_freed h, importedBy_freed h, hg.mirror]
    constructor
    · rintro ⟨_, hab⟩
      refine ⟨?_, hab⟩
      rintro rfl
      exact (hc a).2 ((hg.mirror a b).mpr hab)
    · rintro ⟨_, hab⟩
      refine ⟨?_, hab⟩
      rintro rfl
      exact (hc b).1 ((hg.mirror a b).mpr hab)
  · exact hg.irrefl a ((imports_freed h).mp ha).2

theorem truthful_freed {m m' : HopMemo} (hm : g.Truthful m) (hc : g.Isolated c)
    (hsub : ∀ e ∈ m'.entries, e ∈ m.entries) : g'.Truthful m' := by
  have hne : ∀ x y, g.TopEdge x y → x.context ≠ c ∧ y.context ≠ c := by
    refine fun x y e => ⟨fun hx => ?_, fun hy => ?_⟩
    · exact (hc y.context).1 (hx ▸ e.imports)
    · exact (hc x.context).2 (hy ▸ e.imports)
  refine hm.of_agree (R := fun _ => True) (fun x y _ => ⟨fun e => ?_, fun e => ?_⟩)
    (fun _ _ _ _ => trivial) hsub (fun e _ ht => .inl ⟨((isTop_freed h).mp ht).2, trivial⟩)
  · exact ⟨((isTop_freed h).mp e.source).2, ((isTop_freed h).mp e.target).2,
      ((imports_freed h).mp e.imports).2⟩
  · obtain ⟨hx, hy⟩ := hne x y e
    exact ⟨(isTop_freed h).mpr ⟨hx, e.source⟩, (isTop_freed h).mpr ⟨hy, e.target⟩,
      (imports_freed h).mpr ⟨hx, e.imports⟩⟩

theorem routed_freed {m : HopMemo} (hm : g.Routed m) : g'.Routed m :=
  hm.of_tops fun _ _ hs _ => ((isTop_freed h).mp hs).2

/-- What is forgotten of a file that is freed is on no route of another file: nothing
    imports it, so it is nobody's hop. -/
theorem routed_forgetTop {m : HopMemo} (hm : g.Routed m) (htruth : g.Truthful m)
    (hc : g.Isolated c) : g'.Routed (m.forgetTop ⟨c⟩) := by
  have hnever : ∀ x y : TopId, g.TopEdge x y → y ≠ ⟨c⟩ := by
    rintro x y e rfl
    exact (hc x.context).2 e.imports
  refine hm.forget htruth (K := fun s t => s ≠ ⟨c⟩ ∧ t ≠ ⟨c⟩) ?_ ?_
    fun s next t he hK => ⟨hnever s next he, hK.2⟩
  · intro s t hs hknows
    obtain ⟨next, hnext⟩ := HopMemo.knows_iff.mp hknows
    have hkept := of_decide_eq_true (List.mem_filter.mp (mem_of_find? hnext)).2
    exact ⟨((isTop_freed h).mp hs).2, hkept.1, hkept.2.1⟩
  · intro s t hs hK
    refine HopMemo.find?_filter fun e he hsource htarget => ?_
    rw [decide_eq_true_iff, hsource, htarget]
    refine ⟨hK.1, hK.2, fun hhop => ?_⟩
    have hleads := htruth e he (hsource ▸ hs)
    rw [hhop] at hleads
    exact hnever _ _ hleads.1 rfl

end Freed

/-- What is not there is imported by nothing. -/
theorem Mirrored.not_imports {c : ContextId} (hg : g.Mirrored) (hc : g.context? c = none)
    (a : ContextId) : ¬ g.Imports a c := by
  intro hac
  obtain ⟨data, hd, _⟩ := (hg.mirror a c).mp hac
  rw [hc] at hd
  cases hd

section Made

variable {c : ContextId} {made : Context}
  (h : ∀ x, g'.context? x = if x = c then some made else g.context? x)
  (hnew : g.context? c = none) (hi : made.imports = []) (hr : made.importers = [])

include h hnew hi

theorem imports_made {a b : ContextId} : g'.Imports a b ↔ g.Imports a b := by
  unfold Imports
  rw [h a]
  by_cases ha : a = c
  · subst ha
    simp [hnew, importsDirectly_iff, hi]
  · simp [ha]

/-- Of a context that was never there the memo can only say that no way leads
    from it, and this is so as long as it imports nothing. -/
theorem truthful_made {m : HopMemo} (hg : g.Mirrored) (hm : g.Coherent m)
    (hfresh : ¬ g.contexts.Issued c) : g'.Truthful m := by
  have htop : ∀ t : TopId, t.context ≠ c → (g'.IsTop t ↔ g.IsTop t) := by
    intro t ht
    rw [isTop_iff, isTop_iff, h t.context, if_neg ht]
  have hedge : ∀ x y : TopId, x.context ≠ c → (g'.TopEdge x y ↔ g.TopEdge x y) := by
    intro x y hx
    constructor
    · intro e
      have himp := (imports_made h hnew hi).mp e.imports
      have hy : y.context ≠ c := fun hy => hg.not_imports hnew x.context (hy ▸ himp)
      exact ⟨(htop x hx).mp e.source, (htop y hy).mp e.target, himp⟩
    · intro e
      have hy : y.context ≠ c := fun hy =>
        hg.not_imports hnew x.context (hy ▸ e.imports)
      exact ⟨(htop x hx).mpr e.source, (htop y hy).mpr e.target, (imports_made h hnew hi).mpr e.imports⟩
  refine hm.truthful.of_agree (R := fun t => t.context ≠ c) hedge (fun x y _ e hy => ?_)
    (fun e he => he) (fun e he ht => ?_)
  · exact hg.not_imports hnew x.context (hy ▸ e.imports)
  · by_cases hs : e.source.context = c
    · right
      cases hhop : e.hop with
      | some next =>
        have hissued := hm.grounded e he (by rw [hhop]; rfl)
        rw [hs] at hissued
        exact absurd hissued hfresh
      | none =>
        intro hpath
        obtain ⟨next, hfirst, _⟩ := Relation.TransGen.head'_iff.mp hpath
        have himp := (imports_made h hnew hi).mp hfirst.imports
        obtain ⟨data, hd, _⟩ := himp
        rw [hs, hnew] at hd
        cases hd
    · exact .inl ⟨(htop _ hs).mp ht, hs⟩

omit hnew hi in
theorem routed_made {m : HopMemo} (hm : g.Routed m) (hground : g.Grounded m)
    (hfresh : ¬ g.contexts.Issued c) : g'.Routed m := by
  refine hm.of_tops fun s t hs hknows => ?_
  obtain ⟨next, hnext⟩ := HopMemo.knows_iff.mp hknows
  have hissued : g.contexts.Issued s.context := hground _ (mem_of_find? hnext) rfl
  have hne : s.context ≠ c := fun e => hfresh (e ▸ hissued)
  rw [isTop_iff, h s.context, if_neg hne] at hs
  exact isTop_iff.mpr hs

include hr

theorem mirrored_made (hg : g.Mirrored) : g'.Mirrored := by
  refine ⟨fun a data ha => ?_, fun a data ha => ?_, fun a b => ?_, fun a ha => ?_⟩
  · rw [h a] at ha
    split at ha
    · cases ha
      rw [hi]
      exact List.nodup_nil
    · exact hg.imports_nodup a data ha
  · rw [h a] at ha
    split at ha
    · cases ha
      rw [hr]
      exact List.nodup_nil
    · exact hg.importers_nodup a data ha
  · rw [imports_made h hnew hi, hg.mirror]
    unfold ImportedBy
    rw [h b]
    by_cases hb : b = c
    · subst hb
      simp [hnew, hr]
    · simp [hb]
  · exact hg.irrefl a ((imports_made h hnew hi).mp ha)

end Made

end Graph

namespace Workspace

variable (w : Workspace) (c target : ContextId)

open ScopeGraph.Graph

theorem reworks_linkImport (position : Option Position) :
    Reworks w.graph (w.linkImport c target position).graph fun x data => { data with
      imports := if x = c then data.imports ++ [⟨target, position⟩] else data.imports
      importers := if x = target then data.importers ++ [c] else data.importers } := by
  intro x
  simp only [linkImport, onGraph, context?_modifyContext]
  cases w.graph.context? x <;> split_ifs <;> rfl

theorem reworks_unlinkImport :
    Reworks w.graph (w.unlinkImport c target).graph fun x data => { data with
      imports := if x = c then data.imports.eraseP (·.context = target) else data.imports
      importers := if x = target then data.importers.filter (· ≠ c) else data.importers } := by
  intro x
  simp only [unlinkImport, onGraph, context?_modifyContext]
  cases w.graph.context? x <;> split_ifs <;> rfl

variable {w c target}

theorem imports_linkImport {data : Context} {position : Option Position}
    (hc : w.graph.context? c = some data) (a b : ContextId) :
    (w.linkImport c target position).graph.Imports a b ↔
      w.graph.Imports a b ∨ a = c ∧ b = target := by
  rw [(reworks_linkImport w c target position).imports]
  simp only [importsDirectly_iff, Imports]
  by_cases ha : a = c
  · subst ha
    simp [hc]
  · simp [ha]

theorem importedBy_linkImport {data : Context} {position : Option Position}
    (ht : w.graph.context? target = some data) (a b : ContextId) :
    (w.linkImport c target position).graph.ImportedBy b a ↔
      w.graph.ImportedBy b a ∨ a = c ∧ b = target := by
  rw [(reworks_linkImport w c target position).importedBy]
  unfold ImportedBy
  by_cases hb : b = target
  · subst hb
    simp [ht]
  · simp [hb]

theorem mirrored_linkImport {data : Context} {position : Option Position} (hw : w.graph.Mirrored)
    (hc : w.graph.context? c = some data) (ht : (w.graph.context? target).isSome)
    (hne : c ≠ target) (hi : data.importsDirectly target = false) :
    (w.linkImport c target position).graph.Mirrored := by
  obtain ⟨other, ht⟩ := Option.isSome_iff_exists.mp ht
  have hnew : ¬ w.graph.Imports c target := by
    rintro ⟨data', hc', hi'⟩
    cases hc.symm.trans hc'
    rw [hi] at hi'
    cases hi'
  refine ⟨fun a data' ha => ?_, fun a data' ha => ?_, fun a b => ?_, fun a ha => ?_⟩
  · rw [reworks_linkImport w c target position a] at ha
    obtain ⟨old, hold, rfl⟩ := Option.map_eq_some_iff.mp ha
    dsimp only
    split
    · next e =>
      subst e
      cases hc.symm.trans hold
      rw [List.map_append, List.nodup_append]
      refine ⟨hw.imports_nodup a _ hold, List.nodup_singleton _, fun x hx y hy e => ?_⟩
      rw [e, List.mem_singleton.mp hy] at hx
      exact hnew ⟨_, hc, importsDirectly_iff.mpr hx⟩
    · exact hw.imports_nodup a _ hold
  · rw [reworks_linkImport w c target position a] at ha
    obtain ⟨old, hold, rfl⟩ := Option.map_eq_some_iff.mp ha
    dsimp only
    split
    · next e =>
      subst e
      rw [List.nodup_append]
      refine ⟨hw.importers_nodup a _ hold, List.nodup_singleton _, fun x hx y hy e => ?_⟩
      rw [e, List.mem_singleton.mp hy] at hx
      exact hnew ((hw.mirror c a).mpr ⟨_, hold, hx⟩)
    · exact hw.importers_nodup a _ hold
  · rw [imports_linkImport hc, importedBy_linkImport ht, hw.mirror]
  · rcases (imports_linkImport hc a a).mp ha with ha | ⟨rfl, e⟩
    · exact hw.irrefl a ha
    · exact hne e

theorem imports_unlinkImport (hw : w.graph.Mirrored) (a b : ContextId) :
    (w.unlinkImport c target).graph.Imports a b ↔
      w.graph.Imports a b ∧ ¬ (a = c ∧ b = target) := by
  rw [(reworks_unlinkImport w c target).imports]
  simp only [importsDirectly_iff, Imports]
  by_cases ha : a = c
  · subst ha
    have herase : ∀ data : Context, (data.imports.eraseP (·.context = target)).map (·.context) =
        (data.imports.map (·.context)).erase target := by
      intro data
      rw [List.erase_eq_eraseP', List.eraseP_map]
      rfl
    simp only [if_true, herase, true_and]
    constructor
    · rintro ⟨data, hd, hb⟩
      have hb := (hw.imports_nodup a data hd).mem_erase_iff.mp hb
      exact ⟨⟨data, hd, hb.2⟩, hb.1⟩
    · rintro ⟨⟨data, hd, hb⟩, hne⟩
      exact ⟨data, hd, (hw.imports_nodup a data hd).mem_erase_iff.mpr ⟨hne, hb⟩⟩
  · simp [ha]

theorem importedBy_unlinkImport (a b : ContextId) :
    (w.unlinkImport c target).graph.ImportedBy b a ↔
      w.graph.ImportedBy b a ∧ ¬ (a = c ∧ b = target) := by
  rw [(reworks_unlinkImport w c target).importedBy]
  unfold ImportedBy
  by_cases hb : b = target
  · subst hb
    simp [← and_assoc]
  · simp [hb]

theorem mirrored_unlinkImport (hw : w.graph.Mirrored) :
    (w.unlinkImport c target).graph.Mirrored := by
  refine ⟨fun a data ha => ?_, fun a data ha => ?_, fun a b => ?_, fun a ha => ?_⟩
  · rw [reworks_unlinkImport w c target a] at ha
    obtain ⟨old, hold, rfl⟩ := Option.map_eq_some_iff.mp ha
    have hnd := hw.imports_nodup a old hold
    dsimp only
    split
    · exact hnd.sublist (List.eraseP_sublist.map _)
    · exact hnd
  · rw [reworks_unlinkImport w c target a] at ha
    obtain ⟨old, hold, rfl⟩ := Option.map_eq_some_iff.mp ha
    have hnd := hw.importers_nodup a old hold
    dsimp only
    split
    · exact hnd.filter _
    · exact hnd
  · rw [imports_unlinkImport hw, importedBy_unlinkImport, hw.mirror]
  · exact hw.irrefl a ((imports_unlinkImport hw a a).mp ha).1

/-! ## 5. What holds after every edit -/

/-- The imports are known at both ends. This asks nothing of the memo, and nothing of
    how often a handle was given out. -/
structure Wired (w : Workspace) : Prop where
  tidy : w.graph.contexts.Tidy
  mirrored : w.graph.Mirrored

/-- The imports are known at both ends, what the memo says is so, and its hops lead
    to their targets. -/
structure Linked (w : Workspace) : Prop extends w.Wired where
  truthful : w.graph.Truthful w.memo
  routed : w.graph.Routed w.memo

/-- From one workspace to another nothing comes to be: no context, and nothing
    in the memo. -/
structure AddsNothing (w w' : Workspace) : Prop where
  contexts : Store.OnlyFrees w.graph.contexts w'.graph.contexts
  memo : ∀ e ∈ w'.memo.entries, e ∈ w.memo.entries

theorem AddsNothing.refl (w : Workspace) : AddsNothing w w := ⟨.refl _, fun _ h => h⟩

theorem AddsNothing.trans {w₁ w₂ w₃ : Workspace} (h₁ : AddsNothing w₁ w₂) (h₂ : AddsNothing w₂ w₃) :
    AddsNothing w₁ w₃ :=
  ⟨h₁.contexts.trans h₂.contexts, fun e he => h₁.memo e (h₂.memo e he)⟩

/-- What a step of a teardown does: nothing comes to be, no import either, and
    what holds after every edit goes on holding. -/
structure WiredAfter (w w' : Workspace) : Prop where
  addsNothing : AddsNothing w w'
  imports : ∀ a b, w'.graph.Imports a b → w.graph.Imports a b
  wired : w'.Wired
  linked : w.Linked → w'.Linked

/-- A step of a teardown, from a workspace with its imports in order. -/
def KeepsWired (w w' : Workspace) : Prop := w.Wired → w.WiredAfter w'

theorem KeepsWired.refl (w : Workspace) : KeepsWired w w :=
  fun hw => ⟨.refl w, fun _ _ h => h, hw, id⟩

theorem KeepsWired.trans {w₁ w₂ w₃ : Workspace} (h₁ : KeepsWired w₁ w₂) (h₂ : KeepsWired w₂ w₃) :
    KeepsWired w₁ w₃ := by
  intro hw
  have t₁ := h₁ hw
  have t₂ := h₂ t₁.wired
  exact ⟨t₁.addsNothing.trans t₂.addsNothing, fun a b h => t₁.imports a b (t₂.imports a b h),
    t₂.wired, fun hl => t₂.linked (t₁.linked hl)⟩

instance : IsPreorder Workspace KeepsWired where
  refl := KeepsWired.refl
  trans _ _ _ := KeepsWired.trans

end Workspace

namespace SameLinks

open Workspace

variable {w w' : Workspace} (h : SameLinks w w')

include h

theorem addsNothing : w.AddsNothing w' :=
  ⟨Store.onlyFrees_of_map_eq h.links, fun e he => by rw [h.memo] at he; exact he⟩

theorem tidy (hw : w.graph.contexts.Tidy) : w'.graph.contexts.Tidy :=
  Store.tidy_of_map_eq h.links hw

theorem wired (hw : w.Wired) : w'.Wired := ⟨h.tidy hw.tidy, hw.mirrored.congr h.links⟩

theorem linked (hw : w.Linked) : w'.Linked where
  toWired := h.wired hw.toWired
  truthful := by rw [h.memo]; exact hw.truthful.congr h.links
  routed := by rw [h.memo]; exact hw.routed.congr h.links

theorem keepsWired : w.KeepsWired w' :=
  fun hw => ⟨h.addsNothing, fun a b => (Graph.imports_congr h.links a b).mp, h.wired hw, h.linked⟩

end SameLinks

namespace Workspace

open ScopeGraph.Graph

variable {w : Workspace} {c target : ContextId}

theorem Wired.forgetIf (hw : w.Wired) (isTop : Bool) (c : ContextId) :
    (w.forgetIf isTop c).Wired := by
  have hgraph := graph_forgetIf w isTop c
  exact ⟨by rw [hgraph]; exact hw.tidy, by rw [hgraph]; exact hw.mirrored⟩

/-- The imports of one context are changed at both ends, and forgotten if the
    context is a file. -/
theorem Linked.changeImports {w w' : Workspace} {c : ContextId} {data : Context}
    (hw : w.Linked) (hc : w.graph.context? c = some data) (hmemo : w'.memo = w.memo)
    (hwired : w'.Wired) (htop : ∀ x, w'.graph.top? x = w.graph.top? x)
    (himports : ∀ a b, a ≠ c → (w'.graph.Imports a b ↔ w.graph.Imports a b)) :
    (w'.forgetIf data.isTop c).Linked := by
  unfold Workspace.forgetIf
  split
  · refine ⟨⟨hwired.tidy, hwired.mirrored⟩, ?_, ?_⟩
    · show w'.graph.Truthful (w'.memo.forgetSources _)
      rw [hmemo]
      exact truthful_forgetImportsOf htop himports hw.truthful hwired.mirrored
    · show w'.graph.Routed (w'.memo.forgetSources _)
      rw [hmemo]
      exact routed_forgetImportsOf htop himports hw.routed hw.truthful hwired.mirrored
  · next hnt =>
    have hctop : w.graph.top? c = none := by
      unfold Graph.top?
      rw [hc]
      exact if_neg hnt
    refine ⟨hwired, ?_, ?_⟩
    · rw [hmemo]
      exact truthful_of_nonTop hw.truthful hctop htop himports
    · rw [hmemo]
      exact hw.routed.of_tops fun s _ hs _ => (isTop_of_top?_eq htop s).mp hs

theorem addsNothing_forgetIf (w : Workspace) (isTop : Bool) (c : ContextId) :
    w.AddsNothing (w.forgetIf isTop c) := by
  cases isTop with
  | false => exact .refl w
  | true => exact ⟨.refl _, fun _ he => List.mem_of_mem_filter he⟩

theorem sameLinks_warn (w : Workspace) (x : Warning) : SameLinks w (w.warn x) := rfl

theorem sameLinks_warnUnlessTop (w : Workspace) (isTop : Bool) (target : ContextId) :
    SameLinks w (w.warnUnlessTop isTop target) := by
  unfold warnUnlessTop
  split <;> rfl

theorem Wired.linkImport {data : Context} {position : Option Position} (hw : w.Wired)
    (hc : w.graph.context? c = some data) (ht : (w.graph.context? target).isSome)
    (hne : c ≠ target) (hi : data.importsDirectly target = false) :
    (w.linkImport c target position).Wired :=
  ⟨Store.tidy_modify (Store.tidy_modify hw.tidy _ _) _ _,
    mirrored_linkImport hw.mirrored hc ht hne hi⟩

theorem Wired.unlinkImport (hw : w.Wired) (c target : ContextId) :
    (w.unlinkImport c target).Wired :=
  ⟨Store.tidy_modify (Store.tidy_modify hw.tidy _ _) _ _, mirrored_unlinkImport hw.mirrored⟩

end Workspace

/-! ## 6. The edits of imports -/

namespace Edit

open ScopeGraph.Graph Workspace

theorem sameLinks_setImportPosition (w : Workspace) (c target : ContextId)
    (position : Option Position) : SameLinks w (w.setImportPosition c target position) := by
  refine View.Same.onGraph (.modifyContext _ c fun data => ?_)
  have hmap : (data.imports.modify (data.imports.findIdx (·.context = target))
      ({ · with position := position })).map (·.context) = data.imports.map (·.context) := by
    refine List.ext_getElem? fun i => ?_
    rw [List.getElem?_map, List.getElem?_map, List.getElem?_modify]
    cases data.imports[i]? with
    | none => rfl
    | some edge =>
      simp only [Option.map_eq_map, Option.map_some]
      split <;> rfl
  show Links.mk _ _ _ = Links.mk _ _ _
  rw [hmap]
  rfl

theorem addsNothing_addImport (c target : ContextId) (position : Option Position) (w : Workspace) :
    w.AddsNothing ((addImport c target position).after w) := by
  refine after_addImport (.refl w) (sameLinks_warn w .selfImport).addsNothing
    (fun _ _ => (sameLinks_setImportPosition w c target position).addsNothing)
    fun data _ _ _ _ _ => ?_
  have hlink : w.AddsNothing (w.linkImport c target position) :=
    ⟨(Store.OnlyFrees.modify _ _ _).trans (.modify _ _ _), fun _ h => h⟩
  exact (hlink.trans (sameLinks_warnUnlessTop _ _ _).addsNothing).trans (addsNothing_forgetIf _ _ c)

theorem wired_addImport (c target : ContextId) (position : Option Position) {w : Workspace}
    (hw : w.Wired) : ((addImport c target position).after w).Wired := by
  refine after_addImport hw ((sameLinks_warn w .selfImport).wired hw)
    (fun _ _ => (sameLinks_setImportPosition w c target position).wired hw) ?_
  intro data other hc ht hne hi
  have hlink : (w.linkImport c target position).Wired :=
    hw.linkImport hc (Option.isSome_of_eq_some ht) hne hi
  exact ((sameLinks_warnUnlessTop _ _ _).wired hlink).forgetIf data.isTop c

theorem linked_addImport (c target : ContextId) (position : Option Position) {w : Workspace}
    (hw : w.Linked) : ((addImport c target position).after w).Linked := by
  refine after_addImport hw ((sameLinks_warn w .selfImport).linked hw)
    (fun _ _ => (sameLinks_setImportPosition w c target position).linked hw) ?_
  intro data other hc ht hne hi
  have hsame := sameLinks_warnUnlessTop (w.linkImport c target position) data.isTop target
  have htop := (reworks_linkImport w c target position).top? fun _ _ => rfl
  refine hw.changeImports hc hsame.memo ?_ (fun x => ?_) (fun a b ha => ?_)
  · exact hsame.wired (hw.toWired.linkImport hc (Option.isSome_of_eq_some ht) hne hi)
  · rw [top?_congr hsame.links, htop]
  · rw [imports_congr hsame.links, imports_linkImport hc]
    simp [ha]

theorem keepsWired_removeImport (c target : ContextId) :
    Follows KeepsWired (removeImport c target) := by
  intro w
  refine after_removeImport (fun _ => .refl w) fun data hc _ hw =>
    ⟨?_, fun a b h => ?_, (hw.unlinkImport c target).forgetIf data.isTop c, fun hl => ?_⟩
  · have hunlink : w.AddsNothing (w.unlinkImport c target) :=
      ⟨(Store.OnlyFrees.modify _ _ _).trans (.modify _ _ _), fun _ h => h⟩
    exact hunlink.trans (addsNothing_forgetIf _ _ c)
  · rw [graph_forgetIf] at h
    exact ((imports_unlinkImport hw.mirrored a b).mp h).1
  · refine hl.changeImports hc rfl (hw.unlinkImport c target)
      ((reworks_unlinkImport w c target).top? fun _ _ => rfl) fun a b ha => ?_
    rw [imports_unlinkImport hw.mirrored]
    simp [ha]

/-- After an import is taken away it is gone. -/
theorem not_imports_removeImport {c target : ContextId} {w w' : Workspace} {removed : Bool}
    (hw : w.Wired) (h : removeImport c target w = .ok removed w') :
    ¬ w'.graph.Imports c target := by
  rw [← after_eq_of_ok h]
  refine after_removeImport (P := fun w => ¬ w.graph.Imports c target) ?_ ?_
  · rintro hnone ⟨data, hc, hi⟩
    rw [hnone data hc] at hi
    cases hi
  · intro data _ _
    rw [graph_forgetIf, imports_unlinkImport hw.mirrored]
    exact fun h => h.2 ⟨rfl, rfl⟩

theorem keepsWired_removeImports (c : ContextId) (targets : List ContextId) :
    Follows KeepsWired (removeImports c targets) := by
  induction targets with
  | nil => exact follows_pure 0
  | cons target rest ih =>
    exact (keepsWired_removeImport c target).bind fun _ => ih.bind fun _ => follows_pure _

theorem keepsWired_clearImports (c : ContextId) : Follows KeepsWired (clearImports c) :=
  (follows_needContext c).bind fun _ => keepsWired_removeImports c _

theorem not_imports_removeImports {c : ContextId} {targets : List ContextId} {w w' : Workspace}
    {n : Nat} (hw : w.Wired) (h : removeImports c targets w = .ok n w') :
    ∀ target ∈ targets, ¬ w'.graph.Imports c target := by
  induction targets generalizing w n with
  | nil => exact fun target hmem => absurd hmem List.not_mem_nil
  | cons first rest ih =>
    obtain ⟨removed, w₁, h₁, h⟩ := bind_eq_ok h
    obtain ⟨more, w₂, h₂, h⟩ := bind_eq_ok h
    cases h
    have hw₁ := ((keepsWired_removeImport c first).of_ok h₁ hw).wired
    intro target hmem
    rcases List.mem_cons.mp hmem with rfl | hmem
    · intro himp
      exact not_imports_removeImport hw h₁
        (((keepsWired_removeImports c rest).of_ok h₂ hw₁).imports _ _ himp)
    · exact ih hw₁ h₂ target hmem

/-! ## 7. Teardown -/

theorem keepsWired_dropImporters (c : ContextId) (importers : List ContextId) :
    Follows KeepsWired (dropImporters c importers) :=
  follows_dropImporters (fun i => keepsWired_removeImport i c) importers

theorem not_imports_dropImporters {c : ContextId} {importers : List ContextId}
    {w w' : Workspace} (hw : w.Wired) (h : dropImporters c importers w = .ok () w') :
    ∀ i ∈ importers, ¬ w'.graph.Imports i c := by
  induction importers generalizing w with
  | nil => exact fun i hmem => absurd hmem List.not_mem_nil
  | cons first rest ih =>
    obtain ⟨_, w₁, h₁, hrest⟩ := bind_eq_ok h
    have hkeeps : w.KeepsWired w₁ ∧ ¬ w₁.graph.Imports first c := by
      dsimp only at h₁
      rw [bind_apply] at h₁
      simp only [graph] at h₁
      by_cases hlive : w.graph.hasContext first = true
      · rw [if_pos hlive] at h₁
        obtain ⟨_, w₂, h₂, h₁⟩ := bind_eq_ok h₁
        cases h₁
        exact ⟨(keepsWired_removeImport first c).of_ok h₂, not_imports_removeImport hw h₂⟩
      · rw [if_neg hlive] at h₁
        cases h₁
        refine ⟨.refl w, ?_⟩
        rintro ⟨data, hd, _⟩
        exact hlive (Option.isSome_iff_exists.mpr ⟨data, hd⟩)
    have hw₁ := (hkeeps.1 hw).wired
    intro i hmem
    rcases List.mem_cons.mp hmem with rfl | hmem
    · intro himp
      exact hkeeps.2 (((keepsWired_dropImporters c rest).of_ok hrest hw₁).imports _ _ himp)
    · exact ih hw₁ hrest i hmem

theorem keepsWired_closeContext (c : ContextId) : Follows KeepsWired (closeContext c) := by
  intro w
  unfold after
  rw [closeContext_apply]
  cases w.graph.context? c with
  | none => exact .refl w
  | some data =>
    have hrest : Follows KeepsWired (dropImporters c data.importers >>= fun _ =>
        clearImports c >>= fun _ => pure ()) :=
      (keepsWired_dropImporters c _).bind fun _ => (keepsWired_clearImports c).bind fun _ =>
        follows_pure ()
    exact (SameTies.sever w c data).sameLinks.keepsWired.trans (hrest _)

/-- **A context that is closed imports nothing and is imported by nothing.** -/
theorem isolated_closeContext {c : ContextId} {w w' : Workspace} (hw : w.Wired)
    (h : closeContext c w = .ok () w') : w'.graph.Isolated c := by
  rw [closeContext_apply] at h
  cases hc : w.graph.context? c with
  | none =>
    rw [hc] at h
    cases h
  | some data =>
    rw [hc] at h
    obtain ⟨_, w₂, h₂, h⟩ := bind_eq_ok h
    obtain ⟨_, w₃, h₃, h⟩ := bind_eq_ok h
    cases h
    have hsever := (SameTies.sever w c data).sameLinks
    have hw₁ := hsever.wired hw
    have htrims₂ := (keepsWired_dropImporters c data.importers).of_ok h₂ hw₁
    have hw₂ := htrims₂.wired
    have htrims₃ := (keepsWired_clearImports c).of_ok h₃ hw₂
    intro x
    constructor
    · -- the imports that were cleared are all there were
      intro himp
      obtain ⟨_, w₄, h₄, h₅⟩ := bind_eq_ok h₃
      obtain ⟨own, hown, hi⟩ := htrims₃.imports _ _ himp
      unfold needContext at h₄
      rw [hown] at h₄
      cases h₄
      exact not_imports_removeImports hw₂ h₅ x (importsDirectly_iff.mp hi) himp
    · intro himp
      have himp₂ := htrims₃.imports _ _ himp
      have himp₀ := (imports_congr hsever.links x c).mp (htrims₂.imports _ _ himp₂)
      obtain ⟨own, hown, hmem⟩ := (hw.mirrored.mirror x c).mp himp₀
      cases hc.symm.trans hown
      exact not_imports_dropImporters hw₁ h₂ x hmem himp₂

theorem keepsWired_releaseContext {c : ContextId} {w : Workspace} (hc : w.graph.Isolated c) :
    w.KeepsWired ((releaseContext c).after w) := by
  refine related_needContext fun data _ => ?_
  let w₁ := Workspace.whenSome data.parent (fun p w =>
    if data.anonymous then w else w.onGraph (·.unlinkChild p c)) w
  have h₁ : SameLinks w w₁ := Workspace.related_whenSome fun p => by
    split
    · exact .refl w
    · exact .unlinkChild w p c
  have hisolated : w₁.graph.Isolated c := hc.congr h₁.links
  have hforget : (w.release c data).memo =
      if data.isTop then w₁.memo.forgetTop ⟨c⟩ else w₁.memo := by
    unfold Workspace.release
    dsimp only [Workspace.onGraph]
    split <;> rfl
  have hmemo : ∀ e ∈ (w.release c data).memo.entries, e ∈ w₁.memo.entries := by
    intro e he
    rw [hforget] at he
    split at he
    · exact List.mem_of_mem_filter he
    · exact he
  have hcontexts : (w.release c data).graph.contexts = w₁.graph.contexts.erase c := by
    unfold Workspace.release
    dsimp only [Workspace.onGraph]
    split <;> rfl
  have hgraph : ∀ x, (w.release c data).graph.context? x =
      if x = c then none else w₁.graph.context? x := by
    intro x
    unfold Graph.context?
    rw [hcontexts]
    exact Store.get?_erase _ c x
  have hwired : w₁.Wired → (w.release c data).Wired := by
    intro hw
    refine ⟨?_, mirrored_freed hgraph hw.mirrored hisolated⟩
    rw [hcontexts]
    exact Store.tidy_erase hw.tidy c
  refine h₁.keepsWired.trans fun hw => ⟨⟨?_, hmemo⟩, fun a b h => ((imports_freed hgraph).mp h).2,
    hwired hw, fun hl => ⟨hwired hw, truthful_freed hgraph hl.truthful hisolated hmemo, ?_⟩⟩
  · show Store.OnlyFrees _ (w.release c data).graph.contexts
    rw [hcontexts]
    exact .erase _ c
  · show (w.release c data).graph.Routed (w.release c data).memo
    rw [hforget]
    split
    · exact routed_forgetTop hgraph hl.routed hl.truthful hisolated
    · exact routed_freed hgraph hl.routed

theorem keepsWired_freeContext {c : ContextId} {w : Workspace} (hc : w.graph.Isolated c) :
    w.KeepsWired ((freeContext c).after w) := by
  unfold after
  rw [freeContext_apply]
  cases w.graph.context? c with
  | none => exact .refl w
  | some data =>
    let w₁ := w.onGraph (·.modifyContext c ({ · with uses := [] }))
    have h₁ : SameLinks w w₁ := View.Same.onGraph (.modifyContext _ c fun _ => rfl)
    have hdrop := sameTies_dropDeclarations (w₁.graph.localDeclarations c)
    have h := related_bind (hdrop w₁).sameLinks.keepsWired fun _ w₂ h₂ =>
      keepsWired_releaseContext ((hc.congr h₁.links).congr (hdrop.of_ok h₂).sameLinks.links)
    exact h₁.keepsWired.trans h

/-- **A teardown keeps the imports in step and the memo true**, however far it
    gets. -/
theorem keepsWired_deleteContextWithin (n : Nat) (c : ContextId) :
    Follows KeepsWired (deleteContextWithin n c) := by
  induction n generalizing c with
  | zero => exact follows_throw _
  | succ n ih =>
    have hchildren : ∀ children : List ContextId, Follows KeepsWired
        (forEach (fun child => do
          if (← graph).hasContext child then
            deleteContextWithin n child) children) := by
      refine fun children => follows_forEach (fun child => follows_graph.bind fun g => ?_) children
      split
      · exact ih child
      · exact follows_pure ()
    intro w hw
    refine related_bind (keepsWired_closeContext c w) (fun _ w₁ h₁ => ?_) hw
    have hw₁ := ((keepsWired_closeContext c).of_ok h₁ hw).wired
    have hisolated := isolated_closeContext hw h₁
    refine related_needContext fun data _ => related_bind (hchildren data.children w₁) ?_
    -- the teardown of the children makes no imports, so what is closed stays so
    intro _ w₂ h₂
    have himports := ((hchildren data.children).of_ok h₂ hw₁).imports
    exact keepsWired_freeContext fun x =>
      ⟨fun h => (hisolated x).1 (himports _ _ h), fun h => (hisolated x).2 (himports _ _ h)⟩

theorem keepsWired_deleteContext (c : ContextId) : Follows KeepsWired (deleteContext c) :=
  follows_graph.bind fun _ => keepsWired_deleteContextWithin _ c

theorem keepsWired_clean (c : ContextId) (keep : List Node) : Follows KeepsWired (clean c keep) :=
  follows_clean (fun d w => (sameTies_deleteDeclaration d w).sameLinks.keepsWired)
    keepsWired_deleteContext c keep

/-! ## 8. New contexts -/

/-- A context that is new, and the workspace with the same links after it. -/
structure Makes (w w' : Workspace) (made : Context) : Prop where
  imports : made.imports = []
  importers : made.importers = []
  rest : SameLinks ((newContext made).after w) w'

theorem Makes.evolves {w w' : Workspace} {made : Context} (h : Makes w w' made)
    (hw : w.graph.contexts.Tidy) : Store.Evolves w.graph.contexts w'.graph.contexts :=
  (Store.evolves_insert hw made).of_map_eq h.rest.links

theorem Makes.wired {w w' : Workspace} {made : Context} (h : Makes w w' made) (hw : w.Wired) :
    w'.Wired :=
  h.rest.wired ⟨Store.tidy_insert hw.tidy made, mirrored_made (Store.get?_insert hw.tidy made)
    (Store.get?_insert_new hw.tidy made) h.imports h.importers hw.mirrored⟩

theorem Makes.linked {w w' : Workspace} {made : Context} (h : Makes w w' made) (hw : w.Linked)
    (hm : w.graph.Grounded w.memo) : w'.Linked := by
  have hget : ∀ x, ((newContext made).after w).graph.context? x =
      if x = (w.graph.contexts.insert made).1 then some made else w.graph.context? x :=
    Store.get?_insert hw.tidy made
  have hnew : w.graph.context? (w.graph.contexts.insert made).1 = none :=
    Store.get?_insert_new hw.tidy made
  have hfresh := Store.not_issued_insert hw.tidy made
  refine h.rest.linked ⟨⟨Store.tidy_insert hw.tidy made, ?_⟩, ?_, ?_⟩
  · exact mirrored_made hget hnew h.imports h.importers hw.mirrored
  · exact truthful_made hget hnew h.imports hw.mirrored ⟨hw.truthful, hm⟩ hfresh
  · exact routed_made hget hw.routed hm hfresh

theorem makes_createTop (file : FileId) (range : Span) (w : Workspace) :
    ∃ made, Makes w ((createTop file range).after w) made :=
  ⟨{ range := range, kind := .global, file := some (.new file) }, rfl, rfl, .refl _⟩

theorem makes_createContext {p : ContextId} {range : Span} {w : Workspace} {parent : Context}
    (hp : w.graph.context? p = some parent) :
    ∃ made, Makes w ((createContext p range).after w) made := by
  refine ⟨{ range := range }, rfl, rfl, ?_⟩
  unfold createContext
  have hneed := needContext_bind p (fun _ => newContext { range := range } >>= fun c =>
    addChild p c >>= fun _ => pure c) w
  rw [hp] at hneed
  have h := (sameLinks_addChild p (w.graph.contexts.insert { range := range }).1).bind
    (fun _ => follows_pure (w.graph.contexts.insert { range := range }).1)
    ((newContext { range := range }).after w)
  unfold after at h ⊢
  rw [hneed]
  exact h

theorem makes_createAnonymous {p : ContextId} {range : Span} {w : Workspace} {parent : Context}
    (hp : w.graph.context? p = some parent) :
    ∃ made, Makes w ((createAnonymous p range).after w) made := by
  refine ⟨{ range := range, parent := some p, anonymous := true }, rfl, rfl, ?_⟩
  unfold createAnonymous after
  rw [needContext_bind, hp]
  exact .refl _

end Edit

namespace Change

/-- **A change makes one context, or it makes none**, and then it keeps what
    holds after every edit. -/
theorem makes_or_addsNothing (e : Change) {w : Workspace} (hw : w.Wired) :
    (∃ made, Edit.Makes w (e.apply w) made) ∨
      w.AddsNothing (e.apply w) ∧ (e.apply w).Wired ∧ (w.Linked → (e.apply w).Linked) := by
  have hkeeps : w.KeepsWired (e.apply w) →
      w.AddsNothing (e.apply w) ∧ (e.apply w).Wired ∧ (w.Linked → (e.apply w).Linked) :=
    fun h => ⟨(h hw).addsNothing, (h hw).wired, (h hw).linked⟩
  by_cases htouch : e.touchesLinks = true
  · cases e with
    | createTop file range => exact .inl (Edit.makes_createTop file range w)
    | createContext p range =>
      cases hp : w.graph.context? p with
      | some parent => exact .inl (Edit.makes_createContext hp)
      | none =>
        refine .inr (hkeeps (Edit.related_needContext fun data hd => ?_))
        rw [hp] at hd
        cases hd
    | createAnonymous p range =>
      cases hp : w.graph.context? p with
      | some parent => exact .inl (Edit.makes_createAnonymous hp)
      | none =>
        refine .inr (hkeeps (Edit.related_needContext fun data hd => ?_))
        rw [hp] at hd
        cases hd
    | addImport c target position =>
      exact .inr ⟨Edit.addsNothing_addImport c target position w,
        Edit.wired_addImport c target position hw, Edit.linked_addImport c target position⟩
    | removeImport c target => exact .inr (hkeeps (Edit.keepsWired_removeImport c target w))
    | clearImports c => exact .inr (hkeeps (Edit.keepsWired_clearImports c w))
    | deleteContext c => exact .inr (hkeeps (Edit.keepsWired_deleteContext c w))
    | clean c keep => exact .inr (hkeeps (Edit.keepsWired_clean c keep w))
    | _ => cases htouch
  · exact .inr (hkeeps (sameLinks (Bool.eq_false_iff.mpr htouch) w).keepsWired)

theorem evolves (e : Change) {w : Workspace} (hw : w.Wired) :
    Store.Evolves w.graph.contexts (e.apply w).graph.contexts := by
  rcases e.makes_or_addsNothing hw with ⟨made, h⟩ | ⟨h, _⟩
  · exact h.evolves hw.tidy
  · exact h.contexts.evolves

theorem memo_subset (e : Change) {w : Workspace} (hw : w.Wired) :
    ∀ x ∈ (e.apply w).memo.entries, x ∈ w.memo.entries := by
  rcases e.makes_or_addsNothing hw with ⟨made, h⟩ | ⟨h, _⟩
  · intro x hx
    rw [h.rest.memo] at hx
    exact hx
  · exact h.memo

/-- **Every change keeps both ends of the imports in step.** -/
theorem wired (e : Change) {w : Workspace} (hw : w.Wired) : (e.apply w).Wired := by
  rcases e.makes_or_addsNothing hw with ⟨made, h⟩ | ⟨_, h, _⟩
  · exact h.wired hw
  · exact h

theorem linked (e : Change) {w : Workspace} (hw : w.Linked) (hm : w.graph.Grounded w.memo) :
    (e.apply w).Linked := by
  rcases e.makes_or_addsNothing hw.toWired with ⟨made, h⟩ | ⟨_, _, h⟩
  · exact h.linked hw hm
  · exact h hw

end Change

end ScopeGraph
