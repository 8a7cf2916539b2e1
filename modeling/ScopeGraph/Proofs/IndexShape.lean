/-
  File:      ScopeGraph/Proofs/IndexShape.lean
  Subject:   What all edits keep of the declarations that contexts hold.

  The edits change what a context holds in four ways only: a name comes into its
  index or goes, and a declaration comes into its order or goes. A property that
  these four respect (`Locals.Stable`) therefore holds of every context after every
  sequence of calls (`Workspace.holding_run`), however often slots were freed.

  * `Multimap.Neat`: each key stands once, and no key stands without a value. It is
    such a property of the index.
-/
import ScopeGraph.Proofs.Registration

namespace ScopeGraph

/-! ## 1. What is kept -/

/-- A property of what contexts hold that holds of a new context, and that the
    changes of index and order respect. -/
structure Locals.Stable (P : Locals → Prop) : Prop where
  new : P {}
  add : ∀ l name d, P l → P (l.addName name d)
  drop : ∀ l name d, P l → P (l.dropName name d)
  place : ∀ l startOf d start, P l → P (l.place startOf d start)
  displace : ∀ l d, P l → P (l.displace d)

namespace Locals.Stable

variable {P : Locals → Prop} (hP : Stable P)

include hP

theorem addNames {l : Locals} (h : P l) (names : List (Ident × DeclId)) : P (l.addNames names) := by
  unfold Locals.addNames
  induction names generalizing l with
  | nil => exact h
  | cons n rest ih => exact ih (hP.add l n.1 n.2 h)

theorem dropNames {l : Locals} (h : P l) (names : List (Ident × DeclId)) :
    P (l.dropNames names) := by
  unfold Locals.dropNames
  induction names generalizing l with
  | nil => exact h
  | cons n rest ih => exact ih (hP.drop l n.1 n.2 h)

end Locals.Stable

/-! ## 2. Graphs -/

namespace Graph

/-- What every context holds has a property. -/
def Holding (P : Locals → Prop) (g : Graph) : Prop :=
  ∀ c data, g.context? c = some data → P data.locals

variable {P : Locals → Prop} {g g' : Graph}

namespace Holding

theorem of_sameStock (h : g.Holding P) (hstock : SameStock g g') : g'.Holding P := by
  intro c data hc
  obtain ⟨old, hold, hlocals⟩ := exists_of_map_eq (hstock.context_part (·.2.2.2.2) c) hc
  have hlocals : old.locals = data.locals := hlocals
  exact hlocals ▸ h c old hold

theorem modifyContext (h : g.Holding P) (c : ContextId) {f : Context → Context}
    (hf : ∀ data, P data.locals → P (f data).locals) : (g.modifyContext c f).Holding P := by
  intro x data hx
  rw [context?_modifyContext] at hx
  split at hx
  · obtain ⟨old, hold, rfl⟩ := Option.map_eq_some_iff.mp hx
    exact hf old (h x old hold)
  · exact h x data hx

theorem modifyAll (h : g.Holding P) {f : Locals → Locals} (hf : ∀ l, P l → P (f l))
    (cs : List ContextId) : (g.modifyAll f cs).Holding P := by
  unfold Graph.modifyAll
  induction cs generalizing g with
  | nil => exact h
  | cons c rest ih => exact ih (h.modifyContext c fun data => hf data.locals)

theorem eraseContext (h : g.Holding P) (c : ContextId) :
    Holding P { g with contexts := g.contexts.erase c } := by
  intro x data hx
  have hget : (g.contexts.erase c).get? x = some data := hx
  rw [Store.get?_erase] at hget
  split at hget
  · cases hget
  · exact h x data hget

theorem insertContext (h : g.Holding P) (htidy : g.contexts.Tidy) {made : Context}
    (hmade : P made.locals) : (g.insertContext made).Holding P := by
  intro x data hx
  rw [context?_insertContext made htidy] at hx
  split at hx
  · cases hx
    exact hmade
  · exact h x data hx

section Stable

variable (h : g.Holding P) (hP : Locals.Stable P)

include h hP

theorem spreadNames (c : ContextId) (names : List (Ident × DeclId)) :
    (g.spreadNames c names).Holding P :=
  h.modifyAll (fun _ hl => hP.addNames hl names) _

theorem recallNames (c : ContextId) (names : List (Ident × DeclId)) :
    (g.recallNames c names).Holding P :=
  h.modifyAll (fun _ hl => hP.dropNames hl names) _

theorem attach (c : ContextId) (d : DeclId) : (g.attach c d).Holding P := by
  unfold Graph.attach
  split
  · exact (h.modifyContext c fun _ => hP.place _ _ d _).spreadNames hP c _
  · exact h

theorem detach (c : ContextId) (d : DeclId) : (g.detach c d).Holding P := by
  unfold Graph.detach
  split
  · exact (h.modifyContext c fun _ => hP.displace _ d).recallNames hP c _
  · exact h

theorem shareWithParent (c : ContextId) : (g.shareWithParent c).Holding P := by
  unfold Graph.shareWithParent
  split
  · exact h.spreadNames hP _ _
  · exact h

theorem withdrawFromParent (c : ContextId) : (g.withdrawFromParent c).Holding P := by
  unfold Graph.withdrawFromParent
  split
  · exact h.recallNames hP _ _
  · exact h

theorem unlinkChild (p c : ContextId) : (g.unlinkChild p c).Holding P := by
  unfold Graph.unlinkChild
  refine modifyContext (modifyContext (h.withdrawFromParent hP c) p fun data hdata => ?_) c
    fun data hdata => ?_
  · exact hdata
  · split <;> exact hdata

theorem linkChild (p c : ContextId) : (g.linkChild p c).Holding P := by
  unfold Graph.linkChild
  refine shareWithParent (modifyContext (modifyContext h p fun data hdata => ?_) c
    fun data hdata => ?_) hP c <;> exact hdata

theorem loosen (c : ContextId) (data : Context) : (g.loosen c data).Holding P := by
  unfold Graph.loosen
  cases data.parent with
  | none => exact h
  | some p =>
    cases data.anonymous with
    | true => exact h
    | false => exact h.unlinkChild hP p c

end Stable

end Holding

end Graph

/-! ## 3. Edits -/

namespace Workspace

open ScopeGraph.Graph

/-- What every context holds keeps a property. -/
def Maintains (P : Locals → Prop) (w w' : Workspace) : Prop :=
  w.graph.Holding P → w'.graph.Holding P

variable {P : Locals → Prop} {w w' : Workspace}

theorem Maintains.refl (w : Workspace) : w.Maintains P w := id

theorem Maintains.trans {w₁ w₂ w₃ : Workspace} (h₁ : w₁.Maintains P w₂)
    (h₂ : w₂.Maintains P w₃) : w₁.Maintains P w₃ := fun h => h₂ (h₁ h)

instance : IsPreorder Workspace (Maintains P) where
  refl := .refl
  trans _ _ _ := .trans

theorem maintains_of_sameStock (h : SameStock w.graph w'.graph) : w.Maintains P w' :=
  fun hw => hw.of_sameStock h

theorem Beside.maintains (h : w.Beside w') : w.Maintains P w' :=
  maintains_of_sameStock h.graph.sameStock

theorem maintains_onGraph {f : Graph → Graph} (h : w.graph.Holding P → (f w.graph).Holding P) :
    w.Maintains P (w.onGraph f) := h

theorem maintains_syncDeclaration (w : Workspace) (d : DeclId) :
    w.Maintains P (w.syncDeclaration d) := maintains_of_sameStock (settles_syncDeclaration w d).stock

theorem maintains_registerSubtree (w : Workspace) (c : ContextId) (registered : Bool) :
    w.Maintains P (w.registerSubtree c registered) :=
  maintains_of_sameStock (sameStock_registerSubtree w c registered)

variable (hP : Locals.Stable P) (w)

include hP

theorem maintains_moveDeclaration (c : ContextId) (d : DeclId) (previous : Option ContextId) :
    w.Maintains P (w.moveDeclaration c d previous) := by
  unfold moveDeclaration
  refine .trans (.trans (related_whenSome fun p => ?_) (maintains_onGraph fun hw => ?_))
    (.trans (maintains_onGraph id) (maintains_syncDeclaration _ d))
  · exact maintains_onGraph fun hw => hw.detach hP p d
  · exact hw.attach hP c d

theorem maintains_dropDeclaration (c : ContextId) (d : DeclId) :
    w.Maintains P (w.dropDeclaration c d) := by
  unfold dropDeclaration
  refine .trans (maintains_onGraph fun hw => ?_)
    (.trans (maintains_onGraph id) (maintains_syncDeclaration _ d))
  exact hw.detach hP c d

theorem maintains_renameDeclaration (d : DeclId) (data : Declaration) (name : Ident) :
    w.Maintains P (w.renameDeclaration d data name) := by
  unfold renameDeclaration
  refine .trans (related_whenSome fun c => maintains_onGraph fun hw => ?_)
    (.trans (maintains_onGraph id) (maintains_syncDeclaration _ d))
  exact (hw.recallNames hP c _).spreadNames hP c _

theorem maintains_placeDeclaration (d : DeclId) (data : Declaration) (range : Span) :
    w.Maintains P (w.placeDeclaration d data range) := by
  unfold placeDeclaration
  dsimp only
  split
  · refine .trans (maintains_onGraph id) (related_whenSome fun c => maintains_onGraph fun hw => ?_)
    refine hw.modifyContext c fun old hold => ?_
    dsimp only
    split
    · exact hP.place _ _ d _ (hP.displace _ d hold)
    · exact hold
  · exact maintains_onGraph id

theorem maintains_discard (d : DeclId) (data : Declaration) :
    w.Maintains P (w.discard d data) := by
  unfold discard
  refine .trans (.trans (.trans (.trans (related_whenSome fun c => ?detach) (maintains_onGraph id))
    (related_whenSome fun _ => ?table)) (related_whenSome fun c => ?owner))
    (.trans (related_whenSome fun t => ?file) (maintains_onGraph id))
  case detach => exact maintains_onGraph fun hw => hw.detach hP c d
  case table => exact fun hw => hw
  case owner =>
    exact maintains_of_sameStock (Graph.View.Same.clearOwner (fun _ _ => rfl) _ c d)
  case file => exact maintains_onGraph fun hw => hw.modifyContext _ fun _ hdata => hdata

theorem maintains_adopt (p c : ContextId) (parent child : Context) :
    w.Maintains P (w.adopt p c parent child) := by
  unfold adopt
  refine .trans (.trans (.trans ?warn (related_whenSome fun q => ?cut)) (maintains_onGraph ?link))
    (maintains_registerSubtree _ c _)
  case warn => split <;> exact id
  case cut => exact maintains_onGraph fun hw => hw.unlinkChild hP q c
  case link => exact fun hw => hw.linkChild hP p c

theorem maintains_abandon (p c : ContextId) : w.Maintains P (w.abandon p c) := by
  have hcut : w.Maintains P (w.onGraph (·.unlinkChild p c)) := fun hw => hw.unlinkChild hP p c
  unfold abandon
  dsimp only
  split
  · exact hcut.trans (maintains_registerSubtree _ c false)
  · exact hcut

omit hP in
theorem maintains_sever (c : ContextId) (data : Context) : w.Maintains P (w.sever c data) := by
  unfold sever
  refine .trans (.trans (maintains_onGraph fun hw => ?own) (related_whenSome fun d => ?owner))
    (related_whenSome fun key => ?table)
  case own => exact hw.modifyContext c fun _ hdata => hdata
  case owner => exact maintains_onGraph id
  case table => exact fun hw => hw

theorem maintains_release (c : ContextId) (data : Context) : w.Maintains P (w.release c data) := by
  intro hw
  rw [graph_release]
  exact (hw.loosen hP c data).eraseContext c

end Workspace

namespace Edit

open Workspace ScopeGraph.Graph

variable {P : Locals → Prop} (hP : Locals.Stable P)

theorem maintains_setKind (c : ContextId) (kind : ContextKind) :
    Follows (Maintains P) (setKind c kind) := by
  refine fun w => after_setKind (.refl w) fun _ _ _ => .trans (maintains_onGraph fun hw => ?_)
    (maintains_of_sameStock (settles_syncContext _ c).stock)
  exact hw.modifyContext c fun _ hdata => hdata

theorem maintains_setScopeName (c : ContextId) (name : QualName) :
    Follows (Maintains P) (setScopeName c name) := by
  intro w
  have hname : w.Maintains P (w.onGraph (·.modifyContext c ({ · with scopeName := name }))) :=
    fun hw => hw.modifyContext c fun _ hdata => hdata
  exact after_setScopeName (.refl w) (fun _ _ _ => hname) fun _ _ _ =>
    hname.trans (maintains_of_sameStock (settles_syncSubtree _ c).stock)

theorem maintains_registerTop (t : TopId) (registered : Bool) :
    Follows (Maintains P)
      (needFile t >>= fun _ => update (·.registerSubtree t.context registered)) :=
  (follows_needFile t).bind fun _ => follows_update fun w => maintains_registerSubtree w _ _

include hP

theorem maintains_setPropagates (c : ContextId) (on : Bool) :
    Follows (Maintains P) (setPropagates c on) := by
  refine fun w => after_setPropagates (.refl w) (fun _ _ _ hw => ?on) fun _ _ _ hw => ?off
  case on =>
    have hset : (w.graph.modifyContext c ({ · with propagates := true })).Holding P :=
      hw.modifyContext c fun _ hdata => hdata
    exact hset.shareWithParent hP c
  case off =>
    exact (hw.withdrawFromParent hP c).modifyContext c fun _ hdata => hdata

theorem maintains_addDeclaration (c : ContextId) (d : DeclId) :
    Follows (Maintains P) (addDeclaration c d) :=
  fun w => after_addDeclaration (.refl w) fun _ data _ _ _ =>
    maintains_moveDeclaration w hP c d data.context

theorem maintains_removeDeclaration (c : ContextId) (d : DeclId) :
    Follows (Maintains P) (removeDeclaration c d) :=
  fun w => after_removeDeclaration (.refl w) fun _ _ _ _ _ => maintains_dropDeclaration w hP c d

theorem maintains_declare (c : ContextId) (name : Ident) (range : Span) (kind : DeclKind) :
    Follows (Maintains P) (declare c name range kind) := by
  unfold declare
  refine (follows_needContext c).bind fun _ => Follows.bind (fun w => id) fun d => ?_
  exact (maintains_addDeclaration hP c d).bind fun _ => follows_pure d

theorem maintains_setDeclarationContext (d : DeclId) (c : Option ContextId) :
    Follows (Maintains P) (setDeclarationContext d c) := by
  cases c with
  | some c => exact (maintains_addDeclaration hP c d).bind fun _ => follows_pure ()
  | none =>
    refine (follows_needDeclaration d).bind fun data => ?_
    cases data.context with
    | none => exact follows_pure ()
    | some c => exact (maintains_removeDeclaration hP c d).bind fun _ => follows_pure ()

theorem maintains_clearDeclarations (c : ContextId) :
    Follows (Maintains P) (clearDeclarations c) := by
  refine follows_graph.bind fun g => Follows.bind (follows_forEach (fun d => ?_) _) fun _ =>
    follows_pure _
  exact (maintains_removeDeclaration hP c d).bind fun _ => follows_pure ()

theorem maintains_rename (d : DeclId) (name : Ident) : Follows (Maintains P) (rename d name) :=
  fun w => after_rename (.refl w) fun data _ _ => maintains_renameDeclaration w hP d data name

theorem maintains_setRange (d : DeclId) (range : Span) :
    Follows (Maintains P) (setRange d range) :=
  fun w => after_setRange (.refl w) fun data _ _ => maintains_placeDeclaration w hP d data range

theorem maintains_deleteDeclaration (d : DeclId) :
    Follows (Maintains P) (deleteDeclaration d) :=
  fun w => after_deleteDeclaration (.refl w) fun data _ => maintains_discard w hP d data

theorem maintains_addChild (p c : ContextId) : Follows (Maintains P) (addChild p c) :=
  fun w => after_addChild (.refl w) id fun parent child _ _ _ _ _ =>
    maintains_adopt w hP p c parent child

theorem maintains_removeChild (p c : ContextId) : Follows (Maintains P) (removeChild p c) :=
  fun w => after_removeChild (.refl w) fun _ _ _ => maintains_abandon w hP p c

theorem maintains_deleteContext (c : ContextId) : Follows (Maintains P) (deleteContext c) :=
  follows_deleteContext (fun w c data _ => maintains_sever w c data)
    (fun c target w => (beside_removeImport c target w).maintains)
    (fun c w => (beside_clearImports c w).maintains)
    (fun _ c hw => hw.modifyContext c fun _ hdata => hdata) (maintains_deleteDeclaration hP)
    (fun w c data _ => maintains_release w hP c data) c

theorem maintains_clean (c : ContextId) (keep : List Node) :
    Follows (Maintains P) (clean c keep) :=
  follows_clean (maintains_deleteDeclaration hP) (maintains_deleteContext hP) c keep

variable {w : Workspace} (htidy : w.graph.contexts.Tidy)

include htidy

theorem maintains_newContext {made : Context} (hmade : made.locals = {}) :
    w.Maintains P ((newContext made).after w) :=
  fun hw => hw.insertContext htidy (hmade ▸ hP.new)

theorem maintains_createAnonymous (p : ContextId) (range : Span) :
    w.Maintains P ((createAnonymous p range).after w) :=
  related_needContext fun _ _ => maintains_newContext hP htidy rfl

theorem maintains_createContext (p : ContextId) (range : Span) :
    w.Maintains P ((createContext p range).after w) := by
  cases hp : w.graph.context? p with
  | none =>
    unfold createContext after
    rw [needContext_bind, hp]
    exact .refl w
  | some parent =>
    rw [createContext_after hp]
    exact (maintains_newContext hP htidy rfl).trans (maintains_addChild hP p _ _)

end Edit

/-- **Every change keeps such a property of what contexts hold.** -/
theorem Change.maintains (e : Change) {P : Locals → Prop} (hP : Locals.Stable P) {w : Workspace}
    (htidy : w.graph.contexts.Tidy) : w.Maintains P (e.apply w) := by
  by_cases hbeside : e.isBeside = true
  · exact (beside hbeside w).maintains
  cases e with
  | createTop file range => exact Edit.maintains_newContext hP htidy rfl
  | createContext p range => exact Edit.maintains_createContext hP htidy p range
  | createAnonymous p range => exact Edit.maintains_createAnonymous hP htidy p range
  | deleteContext c => exact Edit.maintains_deleteContext hP c w
  | addChild p c => exact Edit.maintains_addChild hP p c w
  | removeChild p c => exact Edit.maintains_removeChild hP p c w
  | setKind c kind => exact Edit.maintains_setKind c kind w
  | setScopeName c name => exact Edit.maintains_setScopeName c name w
  | setPropagates c on => exact Edit.maintains_setPropagates hP c on w
  | declare c name range kind => exact Edit.maintains_declare hP c name range kind w
  | addDeclaration c d => exact Edit.maintains_addDeclaration hP c d w
  | removeDeclaration c d => exact Edit.maintains_removeDeclaration hP c d w
  | setDeclarationContext d c => exact Edit.maintains_setDeclarationContext hP d c w
  | rename d name => exact Edit.maintains_rename hP d name w
  | setRange d range => exact Edit.maintains_setRange hP d range w
  | register t => exact Edit.maintains_registerTop t true w
  | unregister t => exact Edit.maintains_registerTop t false w
  | deleteDeclaration d => exact Edit.maintains_deleteDeclaration hP d w
  | clearDeclarations c => exact Edit.maintains_clearDeclarations hP c w
  | clean c keep => exact Edit.maintains_clean hP c keep w
  | _ => exact absurd rfl hbeside

/-! ## 4. Sequences of calls -/

namespace Workspace

theorem holding_empty (P : Locals → Prop) (limits : Limits) :
    (empty limits).graph.Holding P := by
  intro c data hc
  have hnone : (empty limits).graph.context? c = none := rfl
  cases hnone.symm.trans hc

/-- **After every sequence of calls such a property holds of what every context
    holds**, however often slots were freed. -/
theorem holding_run {P : Locals → Prop} (hP : Locals.Stable P) {w : Workspace} (hw : w.Wired)
    (hlocals : w.graph.Holding P) (calls : List Call) : (w.run calls).graph.Holding P := by
  induction calls generalizing w with
  | nil => exact hlocals
  | cons call rest ih =>
    refine ih (wired_run hw [call]) ?_
    cases call with
    | change e => exact e.maintains hP hw.tidy hlocals
    | question q =>
      have hgraph := q.graph_apply w
      exact hgraph.symm ▸ hlocals

end Workspace

/-! ## 5. The index -/

/-- Each key stands once, and none without a value. -/
structure Multimap.Neat {κ α : Type} [DecidableEq κ] (m : Multimap κ α) : Prop where
  keys : m.keys.Nodup
  values : ∀ e ∈ m.entries, e.2 ≠ []

namespace Multimap.Neat

variable {κ α : Type} [DecidableEq κ] {m : Multimap κ α}

theorem insert (h : m.Neat) (k : κ) (a : α) : (m.insert k a).Neat := by
  refine ⟨nodup_keys_insert h.keys k a, ?_⟩
  have hvalues : ∀ es : List (κ × List α), (∀ e ∈ es, e.2 ≠ []) →
      ∀ e ∈ insertIn k a es, e.2 ≠ [] := by
    intro es hes
    induction es with
    | nil => simp [insertIn]
    | cons e rest ih =>
      rw [List.forall_mem_cons] at hes
      unfold insertIn
      split
      · exact List.forall_mem_cons.mpr ⟨by simp, hes.2⟩
      · exact List.forall_mem_cons.mpr ⟨hes.1, ih hes.2⟩
  exact hvalues m.entries h.values

variable [DecidableEq α]

theorem erase (h : m.Neat) (k : κ) (a : α) : (m.erase k a).Neat := by
  refine ⟨nodup_keys_erase h.keys k a, ?_⟩
  have hvalues : ∀ es : List (κ × List α), (∀ e ∈ es, e.2 ≠ []) →
      ∀ e ∈ eraseIn k a es, e.2 ≠ [] := by
    intro es hes
    induction es with
    | nil => exact hes
    | cons e rest ih =>
      rw [List.forall_mem_cons] at hes
      unfold eraseIn
      split
      · split
        · dsimp only
          split
          · exact hes.2
          · next hleft => exact List.forall_mem_cons.mpr ⟨hleft, hes.2⟩
        · exact List.forall_mem_cons.mpr hes
      · exact List.forall_mem_cons.mpr ⟨hes.1, ih hes.2⟩
  exact hvalues m.entries h.values

end Multimap.Neat

theorem Locals.stable_neat : Locals.Stable fun l => l.index.Neat where
  new := ⟨List.nodup_nil, fun _ he => absurd he List.not_mem_nil⟩
  add _ name d h := h.insert name d
  drop _ name d h := h.erase name d
  place _ _ _ _ h := h
  displace _ _ h := h

/-- **Every index is neat in every state.** -/
theorem Workspace.neat_run (limits : Limits) (calls : List Call) :
    ((empty limits).run calls).graph.Holding fun l => l.index.Neat :=
  holding_run Locals.stable_neat (wired_empty limits) (holding_empty _ limits) calls

end ScopeGraph
