/-
  File:      ScopeGraph/Proofs/TableEntries.lean
  Subject:   The entries of the symbol table, and bringing them up to date.

  Every node knows the path under which the table holds it. Two things are kept
  apart:

  * `Graph.Entered`: the table holds each node exactly under the path that the
    node says. No edit breaks this, not even for a moment;
  * `Graph.Current`: the path that a node says is the one it should be held
    under. An edit that changes paths breaks this, and repairs it node by node
    (`Settles`): what is up to date stays so, and the node in hand gets so.
-/
import ScopeGraph.Proofs.ScopeTree

namespace ScopeGraph

/-! ## 1. Maps that hold each value under its key -/

namespace Multimap

variable {κ α : Type} [DecidableEq κ] [DecidableEq α]

omit [DecidableEq α] in
theorem valuesIn_of_not_mem {k : κ} {es : List (κ × List α)} (h : k ∉ es.map Prod.fst) :
    valuesIn k es = [] := by
  induction es with
  | nil => rfl
  | cons e rest ih =>
    rw [List.map_cons, List.mem_cons, not_or] at h
    unfold valuesIn
    rw [if_neg (Ne.symm h.1), ih h.2]

omit [DecidableEq α] in
/-- Where no key comes twice, every value is found under some key. -/
theorem exists_find_of_mem_values {m : Multimap κ α}
    (h : m.keys.Nodup) {a : α} (ha : a ∈ m.values) : ∃ k, a ∈ m.find k := by
  obtain ⟨entries⟩ := m
  unfold keys at h
  unfold values at ha
  unfold find
  induction entries with
  | nil => cases ha
  | cons e rest ih =>
    rw [List.map_cons, List.nodup_cons] at h
    rcases List.mem_append.mp (List.flatMap_cons ▸ ha) with he | hrest
    · exact ⟨e.1, by simpa [valuesIn] using he⟩
    · obtain ⟨k, hk⟩ := ih h.2 hrest
      refine ⟨k, ?_⟩
      have hne : e.1 ≠ k := by
        intro heq
        rw [heq] at h
        rw [valuesIn_of_not_mem h.1] at hk
        cases hk
      simpa [valuesIn, hne] using hk

omit [DecidableEq α] in
theorem mem_keys_insertIn {k k' : κ} {a : α} {es : List (κ × List α)} :
    k' ∈ (insertIn k a es).map Prod.fst ↔ k' = k ∨ k' ∈ es.map Prod.fst := by
  induction es with
  | nil => simp [insertIn]
  | cons e rest ih =>
    unfold insertIn
    split
    · next he =>
      subst he
      simp
    · rw [List.map_cons, List.mem_cons, ih, List.map_cons, List.mem_cons]
      exact or_left_comm

omit [DecidableEq α] in
theorem nodup_keys_insert {m : Multimap κ α} (h : m.keys.Nodup) (k : κ) (a : α) :
    (m.insert k a).keys.Nodup := by
  obtain ⟨es⟩ := m
  unfold keys insert at *
  dsimp only at *
  induction es with
  | nil => exact List.nodup_singleton k
  | cons e rest ih =>
    rw [List.map_cons, List.nodup_cons] at h
    unfold insertIn
    split
    · exact List.nodup_cons.mpr h
    · next hne =>
      rw [List.map_cons, List.nodup_cons, mem_keys_insertIn]
      exact ⟨fun hmem => hmem.elim hne h.1, ih h.2⟩

theorem keys_eraseIn_sublist (k : κ) (a : α) (es : List (κ × List α)) :
    ((eraseIn k a es).map Prod.fst).Sublist (es.map Prod.fst) := by
  induction es with
  | nil => exact .slnil
  | cons e rest ih =>
    obtain ⟨k', vs⟩ := e
    unfold eraseIn
    dsimp only
    split
    · split
      · split
        · exact .cons _ (.refl _)
        · exact .refl _
      · exact .refl _
    · exact .cons_cons k' ih

theorem nodup_keys_erase {m : Multimap κ α} (h : m.keys.Nodup) (k : κ) (a : α) :
    (m.erase k a).keys.Nodup :=
  h.sublist (keys_eraseIn_sublist k a m.entries)

/-- A value taken from a key is taken from the values of the key, where each
    key stands once. -/
theorem find_erase_self {m : Multimap κ α} (h : m.keys.Nodup) (k : κ) (a : α) :
    (m.erase k a).find k = (m.find k).erase a := by
  obtain ⟨es⟩ := m
  unfold keys at h
  unfold find erase
  dsimp only at *
  induction es with
  | nil => rfl
  | cons e rest ih =>
    obtain ⟨k', vs⟩ := e
    rw [List.map_cons, List.nodup_cons] at h
    by_cases hk : k' = k
    · subst hk
      by_cases ha : a ∈ vs
      · by_cases hl : vs.erase a = []
        · simp [eraseIn, valuesIn, ha, hl, valuesIn_of_not_mem h.1]
        · simp [eraseIn, valuesIn, ha, hl]
      · simp [eraseIn, valuesIn, ha, List.erase_of_not_mem ha]
    · simpa [eraseIn, valuesIn, hk] using ih h.2

/-- The map holds each value under its key, once, and holds nothing else. -/
structure Indexes (m : Multimap κ α) (key : α → Option κ) : Prop where
  keys : m.keys.Nodup
  nodup : ∀ k, (m.find k).Nodup
  mem : ∀ k a, a ∈ m.find k ↔ key a = some k

/-- A value moved from one key to another, where either may be missing. -/
def rekey (m : Multimap κ α) (a : α) (old new : Option κ) : Multimap κ α :=
  let m := match old with
    | some k => m.erase k a
    | none => m
  match new with
  | some k => m.insertNew k a
  | none => m

namespace Indexes

variable {m : Multimap κ α} {key key' : α → Option κ} {a : α}

theorem erase {k : κ} (h : m.Indexes key) (ha : key a = some k)
    (hkey : ∀ x, key' x = if x = a then none else key x) : (m.erase k a).Indexes key' := by
  have hother : ∀ k', k' ≠ k → (m.erase k a).find k' = m.find k' :=
    fun k' hne => find_erase_of_ne m a hne
  refine ⟨nodup_keys_erase h.keys k a, fun k' => ?_, fun k' x => ?_⟩
  · by_cases hk : k' = k
    · rw [hk, find_erase_self h.keys]
      exact (h.nodup k).erase a
    · rw [hother k' hk]
      exact h.nodup k'
  · rw [hkey x]
    by_cases hk : k' = k
    · subst hk
      rw [find_erase_self h.keys, (h.nodup k').mem_erase_iff, h.mem]
      by_cases hx : x = a <;> simp [hx]
    · rw [hother k' hk, h.mem]
      by_cases hx : x = a
      · subst hx
        simp [ha, Ne.symm hk]
      · simp [hx]

theorem insertNew {k : κ} (h : m.Indexes key) (ha : key a = none)
    (hkey : ∀ x, key' x = if x = a then some k else key x) : (m.insertNew k a).Indexes key' := by
  have hfresh : ∀ k', a ∉ m.find k' := by
    intro k' hmem
    rw [h.mem, ha] at hmem
    cases hmem
  unfold Multimap.insertNew
  rw [if_neg (hfresh k)]
  have hother : ∀ k', k' ≠ k → (m.insert k a).find k' = m.find k' :=
    fun k' hne => find_insert_of_ne m a hne
  refine ⟨nodup_keys_insert h.keys k a, fun k' => ?_, fun k' x => ?_⟩
  · by_cases hk : k' = k
    · rw [hk, find_insert_self, List.nodup_append]
      refine ⟨h.nodup k, List.nodup_singleton a, fun x hx y hy e => ?_⟩
      rw [e, List.mem_singleton.mp hy] at hx
      exact hfresh k hx
    · rw [hother k' hk]
      exact h.nodup k'
  · rw [hkey x]
    by_cases hk : k' = k
    · subst hk
      rw [find_insert_self, List.mem_append, h.mem, List.mem_singleton]
      by_cases hx : x = a <;> simp [hx, ha]
    · rw [hother k' hk, h.mem]
      by_cases hx : x = a
      · subst hx
        simp [ha, Ne.symm hk]
      · simp [hx]

/-- **A value that is moved from the key it has to another has the other.** -/
theorem rekey {old new : Option κ} (h : m.Indexes key) (ha : key a = old)
    (hkey : ∀ x, key' x = if x = a then new else key x) : (m.rekey a old new).Indexes key' := by
  have herased : (m.rekey a old none).Indexes fun x => if x = a then none else key x := by
    cases old with
    | some k => exact h.erase ha fun _ => rfl
    | none =>
      refine ⟨h.keys, h.nodup, fun k x => ?_⟩
      show x ∈ m.find k ↔ _
      rw [h.mem]
      by_cases hx : x = a <;> simp [hx, ha]
  cases new with
  | none =>
    have he : key' = fun x => if x = a then none else key x := funext hkey
    rw [he]
    exact herased
  | some k =>
    refine herased.insertNew (if_pos rfl) fun x => ?_
    rw [hkey x]
    by_cases hx : x = a <;> simp [hx]

end Indexes

end Multimap

/-! ## 2. What the table holds, and what it should hold -/

namespace Graph

variable (g : Graph)

/-- The path under which the table holds a context, as the context says. -/
def heldContext (c : ContextId) : Option Path := (g.context? c).bind (·.key)

/-- The path under which the table holds a declaration, as it says. -/
def heldDeclaration (d : DeclId) : Option Path := (g.declaration? d).bind (·.key)

/-- The table holds the nodes exactly where they say, and the declarations are
    stored in order. -/
structure Entered : Prop where
  contexts : g.table.contexts.Indexes g.heldContext
  declarations : g.table.declarations.Indexes g.heldDeclaration
  tidy : g.declarations.Tidy

/-- A context says that it is held where it should be. -/
def CurrentContext (c : ContextId) : Prop := g.heldContext c = g.contextKey? c

/-- A declaration says that it is held where it should be. -/
def CurrentDeclaration (d : DeclId) : Prop := g.heldDeclaration d = g.declarationKey? d

/-- All nodes say that they are held where they should be. -/
structure Current : Prop where
  contexts : ∀ c, g.CurrentContext c
  declarations : ∀ d, g.CurrentDeclaration d

/-- The view of the table, of what all nodes say about it, and of whether the
    declarations are stored in order. -/
def View.entries : View (Option Path) (Option Path)
    ((ContextId → Option Path) × (DeclId → Option Path) × SymbolTable × Prop) where
  context := Context.key
  declaration := Declaration.key
  shown contexts declarations _ table :=
    (fun c => (contexts.get? c).join, fun d => (declarations.get? d).join, table, declarations.Tidy)

theorem View.entries_of : View.entries.of g =
    (g.heldContext, g.heldDeclaration, g.table, g.declarations.Tidy) := by
  have hjoin : ∀ {sort : NodeSort} {α : Type} (s : Store sort α) (key : α → Option Path) h,
      ((s.map key).get? h).join = (s.get? h).bind key := by
    intro sort α s key h
    rw [Store.get?_map]
    cases s.get? h <;> rfl
  have htidy : (g.declarations.map Declaration.key).Tidy = g.declarations.Tidy :=
    propext (Store.tidy_map _ _)
  refine Prod.ext (funext (hjoin g.contexts Context.key)) (Prod.ext ?_ (Prod.ext rfl htidy))
  exact funext (hjoin g.declarations Declaration.key)

/-- The table is the same, and all nodes say the same about it. -/
abbrev SameEntries : Graph → Graph → Prop := View.entries.Same

variable {g} {g' : Graph}

theorem currentContext_of_gone {c : ContextId} (h : g.context? c = none) : g.CurrentContext c := by
  unfold CurrentContext heldContext contextKey?
  rw [h]
  rfl

theorem currentDeclaration_of_gone {d : DeclId} (h : g.declaration? d = none) :
    g.CurrentDeclaration d := by
  unfold CurrentDeclaration heldDeclaration declarationKey?
  rw [h]
  rfl

namespace SameEntries

theorem of_held (hcontexts : g'.heldContext = g.heldContext)
    (hdeclarations : g'.heldDeclaration = g.heldDeclaration) (htable : g'.table = g.table)
    (htidy : g'.declarations.Tidy ↔ g.declarations.Tidy) : SameEntries g g' := by
  show View.entries.of g' = View.entries.of g
  rw [View.entries_of, View.entries_of, hcontexts, hdeclarations, htable, propext htidy]

theorem shown (h : SameEntries g g') :
    (g'.heldContext, g'.heldDeclaration, g'.table, g'.declarations.Tidy) =
      (g.heldContext, g.heldDeclaration, g.table, g.declarations.Tidy) := by
  rw [← View.entries_of, ← View.entries_of]
  exact h

theorem contexts (h : SameEntries g g') : g'.heldContext = g.heldContext :=
  congrArg Prod.fst h.shown

theorem declarations (h : SameEntries g g') : g'.heldDeclaration = g.heldDeclaration :=
  congrArg (·.2.1) h.shown

theorem table (h : SameEntries g g') : g'.table = g.table := congrArg (·.2.2.1) h.shown

theorem tidy (h : SameEntries g g') : g'.declarations.Tidy = g.declarations.Tidy :=
  congrArg (·.2.2.2) h.shown

theorem entered (h : SameEntries g g') (hg : g.Entered) : g'.Entered where
  contexts := by rw [h.table, h.contexts]; exact hg.contexts
  declarations := by rw [h.table, h.declarations]; exact hg.declarations
  tidy := by rw [h.tidy]; exact hg.tidy

end SameEntries

end Graph

/-! ## 3. Bringing nodes up to date -/

namespace Workspace

open ScopeGraph.Graph

theorem graph_changeTableBy (w : Workspace) (changes : List TableChange) :
    (w.changeTableBy changes).graph =
      { w.graph with table := changes.foldl SymbolTable.apply w.graph.table } := by
  unfold changeTableBy
  induction changes generalizing w with
  | nil => rfl
  | cons change rest ih =>
    rw [List.foldl_cons, ih]
    rfl

theorem apply_keyMoves_declaration (t : SymbolTable) (d : DeclId) (old new : Option Path) :
    (keyMoves (.removeDeclaration · d) (.addDeclaration · d) old new).foldl SymbolTable.apply t =
      { t with declarations := t.declarations.rekey d old new } := by
  cases old <;> cases new <;> rfl

theorem apply_keyMoves_context (t : SymbolTable) (c : ContextId) (old new : Option Path) :
    (keyMoves (.removeContext · c) (.addContext · c) old new).foldl SymbolTable.apply t =
      { t with contexts := t.contexts.rekey c old new } := by
  cases old <;> cases new <;> rfl

/-- Shape and stock are kept, the table holds the nodes where they say, and what
    is up to date stays so. -/
structure Settles (w w' : Workspace) : Prop where
  shape : SameShape w.graph w'.graph
  stock : SameStock w.graph w'.graph
  entered : w.graph.Entered → w'.graph.Entered
  context : ∀ c, w.graph.CurrentContext c → w'.graph.CurrentContext c
  declaration : ∀ d, w.graph.CurrentDeclaration d → w'.graph.CurrentDeclaration d

namespace Settles

theorem refl (w : Workspace) : Settles w w := ⟨.refl _, .refl _, id, fun _ => id, fun _ => id⟩

theorem trans {w₁ w₂ w₃ : Workspace} (h₁ : Settles w₁ w₂) (h₂ : Settles w₂ w₃) :
    Settles w₁ w₃ :=
  ⟨h₁.shape.trans h₂.shape, h₁.stock.trans h₂.stock, fun h => h₂.entered (h₁.entered h),
    fun c h => h₂.context c (h₁.context c h), fun d h => h₂.declaration d (h₁.declaration d h)⟩

instance : IsPreorder Workspace Settles where
  refl := refl
  trans _ _ _ := trans

/-- What one step brings about for its own item, and later steps keep, holds for
    all items in the end. -/
theorem foldl_each {α : Type} {f : Workspace → α → Workspace} {P : α → Workspace → Prop}
    (hf : ∀ w a, Settles w (f w a)) (hdone : ∀ w a, P a (f w a))
    (hkeep : ∀ a w w', Settles w w' → P a w → P a w') (as : List α) (w : Workspace) :
    ∀ a ∈ as, P a (as.foldl f w) := by
  induction as generalizing w with
  | nil => exact fun a h => absurd h List.not_mem_nil
  | cons x rest ih =>
    intro a ha
    rw [List.foldl_cons]
    rcases List.mem_cons.mp ha with rfl | ha
    · exact hkeep a _ _ (related_foldl hf rest _) (hdone w a)
    · exact ih (f w x) a ha

end Settles

/-- A declaration says another key and is held there, and nothing else
    changes. -/
structure RekeysDeclaration (g g' : Graph) (d : DeclId) (key : Option Path) : Prop where
  shape : SameShape g g'
  stock : SameStock g g'
  contexts : g'.heldContext = g.heldContext
  declarations : ∀ x, g'.heldDeclaration x = if x = d then key else g.heldDeclaration x
  entered : g.Entered → g'.Entered

/-- A context says another key and is held there, and nothing else changes. -/
structure RekeysContext (g g' : Graph) (c : ContextId) (key : Option Path) : Prop where
  shape : SameShape g g'
  stock : SameStock g g'
  declarations : g'.heldDeclaration = g.heldDeclaration
  contexts : ∀ x, g'.heldContext x = if x = c then key else g.heldContext x
  entered : g.Entered → g'.Entered

theorem RekeysDeclaration.of_held {g : Graph} {d : DeclId} {key : Option Path}
    (h : g.heldDeclaration d = key) : RekeysDeclaration g g d key := by
  refine ⟨.refl g, .refl g, rfl, fun x => ?_, id⟩
  split
  · next hx => rw [hx]; exact h
  · rfl

theorem RekeysContext.of_held {g : Graph} {c : ContextId} {key : Option Path}
    (h : g.heldContext c = key) : RekeysContext g g c key := by
  refine ⟨.refl g, .refl g, rfl, fun x => ?_, id⟩
  split
  · next hx => rw [hx]; exact h
  · rfl

theorem rekeysDeclaration {w : Workspace} {d : DeclId} {data : Declaration}
    (hd : w.graph.declaration? d = some data) (key : Option Path) :
    RekeysDeclaration w.graph ((w.onGraph (·.modifyDeclaration d ({ · with key := key }))).changeTableBy
      (keyMoves (.removeDeclaration · d) (.addDeclaration · d) data.key key)).graph d key := by
  rw [graph_changeTableBy, apply_keyMoves_declaration]
  let g₁ := w.graph.modifyDeclaration d ({ · with key := key })
  have hheld : w.graph.heldDeclaration d = data.key := by
    unfold heldDeclaration
    rw [hd]
    rfl
  have hnew : ∀ x, g₁.heldDeclaration x = if x = d then key else w.graph.heldDeclaration x := by
    intro x
    unfold heldDeclaration
    rw [declaration?_modifyDeclaration]
    split
    · next hx =>
      rw [hx, hd]
      rfl
    · rfl
  have hshape : SameShape w.graph g₁ := .modifyDeclaration _ d fun _ => rfl
  have hstock : SameStock w.graph g₁ := .modifyDeclaration _ d fun _ => rfl
  exact ⟨hshape, hstock, rfl, hnew, fun hw =>
    ⟨hw.contexts, hw.declarations.rekey hheld hnew, Store.tidy_modify hw.tidy d _⟩⟩

theorem rekeysContext {w : Workspace} {c : ContextId} {data : Context}
    (hc : w.graph.context? c = some data) (key : Option Path) :
    RekeysContext w.graph ((w.onGraph (·.modifyContext c ({ · with key := key }))).changeTableBy
      (keyMoves (.removeContext · c) (.addContext · c) data.key key)).graph c key := by
  rw [graph_changeTableBy, apply_keyMoves_context]
  let g₁ := w.graph.modifyContext c ({ · with key := key })
  have hheld : w.graph.heldContext c = data.key := by
    unfold heldContext
    rw [hc]
    rfl
  have hnew : ∀ x, g₁.heldContext x = if x = c then key else w.graph.heldContext x := by
    intro x
    unfold heldContext
    rw [context?_modifyContext]
    split
    · next hx =>
      rw [hx, hc]
      rfl
    · rfl
  have hshape : SameShape w.graph g₁ := .modifyContext _ c fun _ => rfl
  have hstock : SameStock w.graph g₁ := .modifyContext _ c fun _ => rfl
  exact ⟨hshape, hstock, rfl, hnew, fun hw =>
    ⟨hw.contexts.rekey hheld hnew, hw.declarations, hw.tidy⟩⟩

theorem syncsDeclaration (w : Workspace) (d : DeclId) :
    RekeysDeclaration w.graph (w.syncDeclaration d).graph d (w.graph.declarationKey? d) := by
  unfold syncDeclaration
  cases hd : w.graph.declaration? d with
  | none => exact .of_held (currentDeclaration_of_gone hd)
  | some data =>
    dsimp only
    split
    · next hkey =>
      refine .of_held ?_
      unfold heldDeclaration
      rw [hd]
      exact hkey
    · exact rekeysDeclaration hd _

theorem syncsContext (w : Workspace) (c : ContextId) :
    RekeysContext w.graph (w.syncContextKey c).graph c (w.graph.contextKey? c) := by
  unfold syncContextKey
  cases hc : w.graph.context? c with
  | none => exact .of_held (currentContext_of_gone hc)
  | some data =>
    dsimp only
    split
    · next hkey =>
      refine .of_held ?_
      unfold heldContext
      rw [hc]
      exact hkey
    · exact rekeysContext hc _

theorem RekeysDeclaration.currentDeclaration {g g' : Graph} {d : DeclId}
    (h : RekeysDeclaration g g' d (g.declarationKey? d)) {x : DeclId}
    (hx : x = d ∨ g.CurrentDeclaration x) : g'.CurrentDeclaration x := by
  unfold CurrentDeclaration
  rw [h.declarations, h.shape.declarationKey?]
  split
  · next e => rw [e]
  · next hne => exact hx.resolve_left hne

theorem RekeysContext.currentContext {g g' : Graph} {c : ContextId}
    (h : RekeysContext g g' c (g.contextKey? c)) {x : ContextId}
    (hx : x = c ∨ g.CurrentContext x) : g'.CurrentContext x := by
  unfold CurrentContext
  rw [h.contexts, h.shape.contextKey?]
  split
  · next e => rw [e]
  · next hne => exact hx.resolve_left hne

theorem settles_syncDeclaration (w : Workspace) (d : DeclId) : Settles w (w.syncDeclaration d) := by
  have h := w.syncsDeclaration d
  refine ⟨h.shape, h.stock, h.entered, fun c hc => ?_, fun x hx => h.currentDeclaration (.inr hx)⟩
  unfold CurrentContext
  rw [h.contexts, h.shape.contextKey?]
  exact hc

theorem settles_syncContextKey (w : Workspace) (c : ContextId) : Settles w (w.syncContextKey c) := by
  have h := w.syncsContext c
  refine ⟨h.shape, h.stock, h.entered, fun x hx => h.currentContext (.inr hx), fun d hd => ?_⟩
  unfold CurrentDeclaration
  rw [h.declarations, h.shape.declarationKey?]
  exact hd

/-- A context and its own declarations are up to date. -/
def UpToDate (c : ContextId) (w : Workspace) : Prop :=
  w.graph.CurrentContext c ∧
    ∀ f d, w.graph.outline.context c = some f → d ∈ f.own → w.graph.CurrentDeclaration d

theorem UpToDate.settles {c : ContextId} {w w' : Workspace} (h : Settles w w')
    (hc : UpToDate c w) : UpToDate c w' := by
  refine ⟨h.context c hc.1, fun f d hf hd => h.declaration d (hc.2 f d ?_ hd)⟩
  rw [← h.shape.outline]
  exact hf

theorem settles_syncContext (w : Workspace) (c : ContextId) : Settles w (w.syncContext c) :=
  (settles_syncContextKey w c).trans (related_foldl settles_syncDeclaration _ _)

theorem upToDate_syncContext (w : Workspace) (c : ContextId) : UpToDate c (w.syncContext c) := by
  have hkey := (w.syncsContext c).currentContext (x := c) (.inl rfl)
  have hfold : Settles (w.syncContextKey c) (w.syncContext c) := related_foldl settles_syncDeclaration _ _
  refine ⟨hfold.context c hkey, fun f d hf hd => ?_⟩
  rw [(settles_syncContext w c).shape.outline] at hf
  exact Settles.foldl_each (P := fun d w => w.graph.CurrentDeclaration d) settles_syncDeclaration
    (fun w d => (w.syncsDeclaration d).currentDeclaration (.inl rfl))
    (fun d _ _ h hd => h.declaration d hd) _ _ d (mem_localDeclarations_iff.mpr ⟨f, hf, hd⟩)

theorem settles_syncSubtree (w : Workspace) (c : ContextId) : Settles w (w.syncSubtree c) :=
  related_foldl settles_syncContext _ w

theorem upToDate_syncSubtree {w : Workspace} (ht : w.graph.outline.Tree) {c x : ContextId}
    (hx : w.graph.outline.Below c x) : UpToDate x (w.syncSubtree c) :=
  Settles.foldl_each settles_syncContext upToDate_syncContext (fun _ _ _ h hc => hc.settles h) _ w x
    ((mem_subtreeBackwards_iff ht.acyclic).mpr hx)

/-- What is not in a set of contexts is up to date: the contexts, the
    declarations that they hold, and the declarations that nothing holds. -/
structure CurrentOutside (S : ContextId → Prop) (g : Graph) : Prop where
  contexts : ∀ c, ¬ S c → g.CurrentContext c
  declarations : ∀ d f, g.outline.declaration d = some f → (∀ c, f.context = some c → ¬ S c) →
    g.CurrentDeclaration d

/-- What a change made out of date in a set of contexts is repaired by bringing
    the contexts of the set up to date. -/
theorem CurrentOutside.current {S : ContextId → Prop} {w w' : Workspace}
    (h : CurrentOutside S w.graph) (hh : w.graph.outline.Holds) (hs : Settles w w')
    (hdone : ∀ x, S x → UpToDate x w') : w'.graph.Current := by
  refine ⟨fun x => ?_, fun d => ?_⟩
  · by_cases hx : S x
    · exact (hdone x hx).1
    · exact hs.context x (h.contexts x hx)
  · cases hd : w.graph.outline.declaration d with
    | none =>
      refine hs.declaration d (currentDeclaration_of_gone ?_)
      exact Option.map_eq_none_iff.mp hd
    | some f =>
      by_cases hout : ∀ x, f.context = some x → ¬ S x
      · exact hs.declaration d (h.declarations d f hd hout)
      · obtain ⟨x, hx, hin⟩ : ∃ x, f.context = some x ∧ S x := by
          by_contra hno
          exact hout fun x hx hin => hno ⟨x, hx, hin⟩
        obtain ⟨fx, hfx, hmem⟩ := hh.holder hd hx
        refine (hdone x hin).2 fx d ?_ hmem
        rw [hs.shape.outline]
        exact hfx

/-- **What a change made out of date below a context, its subtree brings up to
    date.** -/
theorem current_syncSubtree {w : Workspace} (ht : w.graph.outline.Tree)
    (hh : w.graph.outline.Holds) {c : ContextId}
    (h : CurrentOutside (w.graph.outline.Below c) w.graph) : (w.syncSubtree c).graph.Current :=
  h.current hh (settles_syncSubtree w c) fun _ hx => upToDate_syncSubtree ht hx

/-- The same for a change that concerns one context and its own declarations. -/
theorem current_syncContext {w : Workspace} (hh : w.graph.outline.Holds) {c : ContextId}
    (h : CurrentOutside (· = c) w.graph) : (w.syncContext c).graph.Current :=
  h.current hh (settles_syncContext w c) fun _ hx => hx ▸ upToDate_syncContext w c

end Workspace

end ScopeGraph
