/-
  File:      ScopeGraph/Proofs/ImportPaths.lean
  Subject:   Paths of imports, and the contexts from which imports lead to one.

  * `Graph.TopPath`: a path of imports from file to file, at least one import
    long and through live tops only.
  * `Graph.Mirrored`: both ends of every import are there and know of it.
  * `mem_importersOf`: the worklist over importers finds exactly the contexts
    from which imports lead to a context; `Mirrored.mem_importersOf_iff` says it
    of the imports themselves.
-/
import Mathlib.Data.List.Dedup
import Mathlib.Logic.Relation
import ScopeGraph.Proofs.ImportLinks

namespace ScopeGraph

namespace Graph

variable (g : Graph)

/-! ## 1. Imports and paths -/

/-- The handle names a live top context. -/
def IsTop (t : TopId) : Prop := g.top? t.context = some t

instance (t : TopId) : Decidable (g.IsTop t) := inferInstanceAs (Decidable (_ = _))

/-- A context is there and imports another one directly. -/
def Imports (a b : ContextId) : Prop :=
  ∃ data, g.context? a = some data ∧ data.importsDirectly b = true

/-- A context is there and lists another one among its importers. -/
def ImportedBy (b a : ContextId) : Prop := ∃ data, g.context? b = some data ∧ a ∈ data.importers

/-- One file imports another one directly; both are live tops. -/
structure TopEdge (s t : TopId) : Prop where
  source : g.IsTop s
  target : g.IsTop t
  imports : g.Imports s.context t.context

/-- A path of imports, of one import at least, through live tops. -/
def TopPath : TopId → TopId → Prop := Relation.TransGen g.TopEdge

/-- **Both ends of an import know of it**, each lists the other once, and no
    context imports itself. -/
structure Mirrored : Prop where
  imports_nodup : ∀ a data, g.context? a = some data → (data.imports.map (·.context)).Nodup
  importers_nodup : ∀ a data, g.context? a = some data → data.importers.Nodup
  mirror : ∀ a b, g.Imports a b ↔ g.ImportedBy b a
  irrefl : ∀ a, ¬ g.Imports a a

variable {g}

theorem isTop_iff {t : TopId} :
    g.IsTop t ↔ ∃ data, g.context? t.context = some data ∧ data.isTop = true := by
  unfold IsTop top?
  cases g.context? t.context with
  | none => simp
  | some data =>
    cases h : data.isTop with
    | true => simp [h]
    | false => simp [h]

theorem isTop_of_top? {c : ContextId} {t : TopId} (h : g.top? c = some t) :
    t.context = c ∧ g.IsTop t := by
  have hc : t.context = c := by
    unfold top? at h
    split at h
    · split at h
      · cases h
        rfl
      · cases h
    · cases h
  subst hc
  exact ⟨rfl, h⟩

theorem mem_tops_iff {t : TopId} : t ∈ g.tops ↔ g.IsTop t := by
  rw [isTop_iff]
  unfold tops
  rw [List.mem_map]
  constructor
  · rintro ⟨⟨c, data⟩, hmem, rfl⟩
    obtain ⟨hmem, ht⟩ := List.mem_filter.mp hmem
    exact ⟨data, Store.mem_entries_iff.mp hmem, ht⟩
  · rintro ⟨data, hc, ht⟩
    exact ⟨(t.context, data), List.mem_filter.mpr ⟨Store.mem_entries_iff.mpr hc, ht⟩, rfl⟩

theorem importsDirectly_iff {data : Context} {b : ContextId} :
    data.importsDirectly b = true ↔ b ∈ data.imports.map (·.context) := by
  unfold Context.importsDirectly
  rw [List.any_eq_true, List.mem_map]
  simp

/-! ## 2. All of it is read off the links -/

section Links

variable {g' : Graph}

theorem imports_iff_links {a b : ContextId} :
    g.Imports a b ↔ ∃ l, g.links.get? a = some l ∧ b ∈ l.imports := by
  simp only [Imports, importsDirectly_iff, links_get?, Option.map_eq_some_iff]
  constructor
  · rintro ⟨data, hd, hb⟩
    exact ⟨_, ⟨data, hd, rfl⟩, hb⟩
  · rintro ⟨_, ⟨data, hd, rfl⟩, hb⟩
    exact ⟨data, hd, hb⟩

theorem importedBy_iff_links {a b : ContextId} :
    g.ImportedBy b a ↔ ∃ l, g.links.get? b = some l ∧ a ∈ l.importers := by
  simp only [ImportedBy, links_get?, Option.map_eq_some_iff]
  constructor
  · rintro ⟨data, hd, hb⟩
    exact ⟨_, ⟨data, hd, rfl⟩, hb⟩
  · rintro ⟨_, ⟨data, hd, rfl⟩, hb⟩
    exact ⟨data, hd, hb⟩

theorem top?_eq_links (c : ContextId) :
    g.top? c = (g.links.get? c).bind fun l => if l.isTop then some ⟨c⟩ else none := by
  rw [links_get?]
  unfold top?
  cases g.context? c <;> rfl

theorem top?_congr (h : g'.links = g.links) (c : ContextId) : g'.top? c = g.top? c := by
  rw [top?_eq_links, top?_eq_links, h]

theorem isTop_congr (h : g'.links = g.links) (t : TopId) : g'.IsTop t ↔ g.IsTop t := by
  unfold IsTop
  rw [top?_congr h]

theorem imports_congr (h : g'.links = g.links) (a b : ContextId) :
    g'.Imports a b ↔ g.Imports a b := by
  rw [imports_iff_links, imports_iff_links, h]

theorem importedBy_congr (h : g'.links = g.links) (a b : ContextId) :
    g'.ImportedBy b a ↔ g.ImportedBy b a := by
  rw [importedBy_iff_links, importedBy_iff_links, h]

theorem topEdge_congr (h : g'.links = g.links) : g'.TopEdge = g.TopEdge := by
  funext s t
  refine propext ⟨fun e => ?_, fun e => ?_⟩
  · exact ⟨(isTop_congr h s).mp e.source, (isTop_congr h t).mp e.target,
      (imports_congr h _ _).mp e.imports⟩
  · exact ⟨(isTop_congr h s).mpr e.source, (isTop_congr h t).mpr e.target,
      (imports_congr h _ _).mpr e.imports⟩

theorem topPath_congr (h : g'.links = g.links) : g'.TopPath = g.TopPath := by
  unfold TopPath
  rw [topEdge_congr h]

theorem links_of_context? {c : ContextId} {data : Context} (h : g'.links = g.links)
    (hc : g'.context? c = some data) :
    ∃ data₀, g.context? c = some data₀ ∧ data₀.links = data.links := by
  have hl : g'.links.get? c = some data.links := by rw [links_get?, hc]; rfl
  rw [h, links_get?, Option.map_eq_some_iff] at hl
  exact hl

theorem Mirrored.congr (h : g'.links = g.links) (hm : g.Mirrored) : g'.Mirrored where
  imports_nodup a data ha := by
    obtain ⟨data₀, ha₀, e⟩ := links_of_context? h ha
    have hi : data₀.imports.map (·.context) = data.imports.map (·.context) :=
      congrArg Links.imports e
    rw [← hi]
    exact hm.imports_nodup a data₀ ha₀
  importers_nodup a data ha := by
    obtain ⟨data₀, ha₀, e⟩ := links_of_context? h ha
    have hi : data₀.importers = data.importers := congrArg Links.importers e
    rw [← hi]
    exact hm.importers_nodup a data₀ ha₀
  mirror a b := by rw [imports_congr h, importedBy_congr h, hm.mirror]
  irrefl a := by rw [imports_congr h]; exact hm.irrefl a

end Links

/-! ## 3. Backwards over imports -/

theorem nodup_eraseDups {α : Type} [BEq α] [LawfulBEq α] (l : List α) : l.eraseDups.Nodup := by
  induction hn : l.length using Nat.strong_induction_on generalizing l with
  | _ n ih =>
    cases l with
    | nil => exact List.nodup_nil
    | cons a as =>
      rw [List.eraseDups_cons, List.nodup_cons]
      constructor
      · rw [List.mem_eraseDups, List.mem_filter]
        simp
      · refine ih _ ?_ _ rfl
        rw [← hn, List.length_cons]
        exact Nat.lt_succ_of_le (List.length_filter_le _ as)

theorem eraseDups_of_nodup {α : Type} [BEq α] [LawfulBEq α] {l : List α} (h : l.Nodup) :
    l.eraseDups = l := by
  induction l with
  | nil => rfl
  | cons a as ih =>
    obtain ⟨ha, has⟩ := List.nodup_cons.mp h
    have hkeep : as.filter (fun b => !b == a) = as := by
      refine List.filter_eq_self.mpr fun b hb => ?_
      have hne : b ≠ a := fun e => ha (e ▸ hb)
      simpa using hne
    rw [List.eraseDups_cons, hkeep, ih has]

/-- Everything that stands in a list of importers. -/
def allImporters (g : Graph) : List ContextId := g.contexts.entries.flatMap (·.2.importers)

theorem length_allImporters : g.allImporters.length = g.importLinks := rfl

theorem mem_allImporters {a b : ContextId} (h : a ∈ g.importers b) : a ∈ g.allImporters := by
  unfold importers at h
  cases hb : g.context? b with
  | none =>
    rw [hb] at h
    cases h
  | some data =>
    rw [hb] at h
    exact List.mem_flatMap.mpr ⟨(b, data), Store.mem_entries_iff.mpr hb, h⟩

theorem mem_importers_iff {a b : ContextId} : a ∈ g.importers b ↔ g.ImportedBy b a := by
  unfold importers ImportedBy
  cases g.context? b <;> simp

theorem importersLoop_sound {c : ContextId} (n : Nat) (queue known : List ContextId)
    (hq : ∀ x ∈ queue, x ∈ known)
    (hk : ∀ x ∈ known, Relation.ReflTransGen (fun a b => a ∈ g.importers b) x c) :
    ∀ x ∈ g.importersLoop n queue known,
      Relation.ReflTransGen (fun a b => a ∈ g.importers b) x c := by
  induction n generalizing queue known with
  | zero => exact hk
  | succ n ih =>
    cases queue with
    | nil => exact hk
    | cons y queue =>
      refine ih _ _ (fun x hx => ?_) (fun x hx => ?_)
      · rcases List.mem_append.mp hx with hx | hx
        · exact List.mem_append_left _ (hq x (List.mem_cons_of_mem _ hx))
        · exact List.mem_append_right _ hx
      · rcases List.mem_append.mp hx with hx | hx
        · exact hk x hx
        · rw [List.mem_eraseDups, List.mem_filter] at hx
          exact .head hx.1 (hk y (hq y List.mem_cons_self))

/-- The loop ends with a set that is closed under importers, if it has a step
    for everything in the queue and everything that is not known yet. -/
theorem importersLoop_closed (n : Nat) (queue known : List ContextId)
    (hn : queue.length + (g.allImporters.toFinset \ known.toFinset).card ≤ n)
    (hclosed : ∀ y ∈ known, y ∈ queue ∨ ∀ x ∈ g.importers y, x ∈ known) :
    (∀ y ∈ known, y ∈ g.importersLoop n queue known) ∧
      ∀ y ∈ g.importersLoop n queue known, ∀ x ∈ g.importers y,
        x ∈ g.importersLoop n queue known := by
  induction n generalizing queue known with
  | zero =>
    have hq : queue = [] := List.length_eq_zero_iff.mp (by omega)
    subst hq
    exact ⟨fun y hy => hy, fun y hy => (hclosed y hy).resolve_left List.not_mem_nil⟩
  | succ n ih =>
    cases queue with
    | nil => exact ⟨fun y hy => hy, fun y hy => (hclosed y hy).resolve_left List.not_mem_nil⟩
    | cons c queue =>
      let fresh := ((g.importers c).filter (· ∉ known)).eraseDups
      have hfresh : ∀ x, x ∈ fresh ↔ x ∈ g.importers c ∧ x ∉ known := by
        intro x
        rw [List.mem_eraseDups, List.mem_filter]
        simp
      have hcount : (g.allImporters.toFinset \ (known ++ fresh).toFinset).card + fresh.length =
          (g.allImporters.toFinset \ known.toFinset).card := by
        have hsub : fresh.toFinset ⊆ g.allImporters.toFinset \ known.toFinset := by
          intro x hx
          have hx := (hfresh x).mp (List.mem_toFinset.mp hx)
          rw [Finset.mem_sdiff, List.mem_toFinset, List.mem_toFinset]
          exact ⟨mem_allImporters hx.1, hx.2⟩
        have hlen : fresh.length = fresh.toFinset.card :=
          (List.toFinset_card_of_nodup (nodup_eraseDups _)).symm
        rw [List.toFinset_append, ← Finset.sup_eq_union, ← sdiff_sdiff_left, hlen]
        exact Finset.card_sdiff_add_card_eq_card hsub
      have h := ih (queue ++ fresh) (known ++ fresh) ?_ ?_
      · exact ⟨fun y hy => h.1 y (List.mem_append_left _ hy), h.2⟩
      · rw [List.length_append]
        rw [List.length_cons] at hn
        omega
      · intro y hy
        rcases List.mem_append.mp hy with hy | hy
        · rcases hclosed y hy with hq | hall
          · rcases List.mem_cons.mp hq with rfl | hq
            · right
              intro x hx
              by_cases hxk : x ∈ known
              · exact List.mem_append_left _ hxk
              · exact List.mem_append_right _ ((hfresh x).mpr ⟨hx, hxk⟩)
            · exact Or.inl (List.mem_append_left _ hq)
          · exact Or.inr fun x hx => List.mem_append_left _ (hall x hx)
        · exact Or.inl (List.mem_append_right _ hy)

/-- **The importers found are exactly those from which imports lead to the
    context.** -/
theorem mem_importersOf {c x : ContextId} :
    x ∈ g.importersOf c ↔ Relation.ReflTransGen (fun a b => a ∈ g.importers b) x c := by
  constructor
  · refine importersLoop_sound _ [c] [c] (fun x hx => hx) (fun y hy => ?_) x
    rw [List.mem_singleton.mp hy]
  · have h := importersLoop_closed (g := g) (g.importLinks + 1) [c] [c] ?_
      (fun y hy => Or.inl hy)
    · intro hr
      induction hr using Relation.ReflTransGen.head_induction_on with
      | refl => exact h.1 c (List.mem_singleton_self c)
      | head hxy _ ih => exact h.2 _ ih _ hxy
    · have hle : (g.allImporters.toFinset \ [c].toFinset).card ≤ g.importLinks := by
        rw [← length_allImporters]
        exact (Finset.card_le_card Finset.sdiff_subset).trans (List.toFinset_card_le _)
      rw [List.length_singleton]
      omega

/-- Backwards over importers one comes to where forwards over imports one came from. -/
theorem Mirrored.mem_importersOf_iff (hg : g.Mirrored) {c x : ContextId} :
    x ∈ g.importersOf c ↔ x = c ∨ Relation.TransGen g.Imports x c := by
  have hstep : (fun a b => a ∈ g.importers b) = g.Imports := by
    funext a b
    rw [mem_importers_iff, hg.mirror]
  rw [mem_importersOf, hstep, Relation.reflTransGen_iff_eq_or_transGen, eq_comm]

/-- Of contexts that are not both tops the question for imports is answered by the walk
    over importers. -/
theorem answer_imports {c origin : ContextId} (h : ¬ (g.IsTop ⟨c⟩ ∧ g.IsTop ⟨origin⟩))
    (m : HopMemo) : (g.imports c origin).answer m = decide (c ∈ g.importersOf origin) := by
  unfold imports
  cases hc : g.top? c with
  | none => rfl
  | some s =>
    cases ho : g.top? origin with
    | none => rfl
    | some t =>
      obtain ⟨rfl, hs⟩ := isTop_of_top? hc
      obtain ⟨rfl, ht⟩ := isTop_of_top? ho
      exact absurd ⟨hs, ht⟩ h

end Graph

end ScopeGraph
