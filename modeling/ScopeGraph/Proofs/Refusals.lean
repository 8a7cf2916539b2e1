/-
  File:      ScopeGraph/Proofs/Refusals.lean
  Subject:   An edit that fails, fails before it changes anything.

  Many edits look handles up after they have changed the graph: a new context is
  put below its parent, what was deleted is looked for again. None of these later
  looks can fail, because the graph is consistent and its stores are tidy. So an
  edit fails for what it is GIVEN only:

  * `Change.refusal`: the first handle among the arguments of a change that does
    not name what it should;
  * `Change.refuses`: a change fails with its refusal and at once, or goes through;
  * `Workspace.failed_change_keeps`: a change that fails leaves the whole workspace
    as it was.
-/
import ScopeGraph.Proofs.Cleaning

namespace ScopeGraph

/-! ## 1. Why a change is refused -/

namespace Graph

variable (g : Graph)

/-- The objection to a handle that should name a context. -/
def lacksContext (c : ContextId) : Option EditError :=
  if g.hasContext c then none else some (.staleContext c)

/-- The objection to a handle that should name a declaration. -/
def lacksDeclaration (d : DeclId) : Option EditError :=
  if g.hasDeclaration d then none else some (.staleDeclaration d)

/-- The objection to a handle that should name a top. -/
def lacksFile (t : TopId) : Option EditError :=
  (g.lacksContext t.context).or
    (if (g.fileRecord? t).isSome then none else some (.notATop t.context))

/-- The objection to a handle that should name a context that is not anonymous. -/
def lacksNamed (c : ContextId) : Option EditError :=
  (g.lacksContext c).or
    (if (g.context? c).any (·.anonymous) then some (.anonymousChild c) else none)

end Graph

/-- The first objection to the arguments of a change. -/
def Change.refusal : Change → Graph → Option EditError
  | .createTop .., _ => none
  | .createContext p _, g => g.lacksContext p
  | .createAnonymous p _, g => g.lacksContext p
  | .addChild p c, g => (g.lacksContext p).or (g.lacksNamed c)
  | .removeChild p _, g => g.lacksContext p
  | .setKind c _, g => g.lacksContext c
  | .setScopeName c _, g => g.lacksContext c
  | .setPropagates c _, g => g.lacksContext c
  | .declare c .., g => g.lacksContext c
  | .addDeclaration c d, g => (g.lacksContext c).or (g.lacksDeclaration d)
  | .removeDeclaration c d, g => (g.lacksContext c).or (g.lacksDeclaration d)
  | .setDeclarationContext d (some c), g => (g.lacksContext c).or (g.lacksDeclaration d)
  | .setDeclarationContext d none, g => g.lacksDeclaration d
  | .rename d _, g => g.lacksDeclaration d
  | .setRange d _, g => g.lacksDeclaration d
  | .setType d _, g => g.lacksDeclaration d
  | .setInternal d (some c), g => (g.lacksDeclaration d).or (g.lacksContext c)
  | .setInternal d none, g => g.lacksDeclaration d
  | .setOwner c (some d), g => (g.lacksDeclaration d).or (g.lacksContext c)
  | .setOwner c none, g => g.lacksContext c
  | .setAliased d _, g => g.lacksDeclaration d
  | .setNamespaceTarget d _, g => g.lacksDeclaration d
  | .addImport c target _, g => (g.lacksContext c).or (g.lacksContext target)
  | .removeImport c _, g => g.lacksContext c
  | .clearImports c, g => g.lacksContext c
  | .createUse c .., g => g.lacksContext c
  | .setUseRange c .., g => g.lacksContext c
  | .setUseIndex c .., g => g.lacksContext c
  | .deleteUse c _, g => g.lacksContext c
  | .deleteUses c, g => g.lacksContext c
  | .register t, g => g.lacksFile t
  | .unregister t, g => g.lacksFile t
  | .addProblem t _, g => g.lacksFile t
  | .clearProblems t, g => g.lacksFile t
  | .setFlags t _, g => g.lacksFile t
  | .setHasUses t _, g => g.lacksFile t
  | .setIdentity t _, g => g.lacksFile t
  | .declarationIndex t d, g => (g.lacksDeclaration d).or (g.lacksFile t)
  | .deleteDeclaration d, g => g.lacksDeclaration d
  | .clearDeclarations _, _ => none
  | .deleteContext c, g => g.lacksContext c
  | .clean c _, g => g.lacksContext c

/-- The error an edit ends with, if it fails. -/
def Edit.error? {α : Type} (e : Edit α) (w : Workspace) : Option EditError :=
  match e w with
  | .ok _ _ => none
  | .error x _ => some x

/-- The error a change ends with, if it fails. -/
def Change.error? (e : Change) : Workspace → Option EditError := e.edit.2.error?

/-! ## 2. Edits that fail at once or go through -/

namespace Edit

open Workspace ScopeGraph.Graph Outline

variable {α β : Type} {w : Workspace} {c : ContextId} {d : DeclId} {t : TopId}

/-- The edit fails at once with the given objection; without one it goes through. -/
def Refuses (e : Edit α) (w : Workspace) : Option EditError → Prop
  | some x => e w = .error x w
  | none => ∃ a w', e w = .ok a w'

theorem Refuses.error? {e : Edit α} {r : Option EditError} (h : e.Refuses w r) :
    e.error? w = r := by
  unfold Edit.error?
  cases r with
  | some x =>
    have h : e w = .error x w := h
    rw [h]
  | none =>
    obtain ⟨a, w', h⟩ := h
    rw [h]

theorem Refuses.after {e : Edit α} {r : Option EditError} (h : e.Refuses w r) {x : EditError}
    (hx : r = some x) : e.after w = w := by
  subst hx
  exact after_eq_of_error h

theorem refuses_ok {e : Edit α} {a : α} {u : Workspace} (h : e w = .ok a u) :
    e.Refuses w none := ⟨a, u, h⟩

/-- What comes after an edit that went through goes through. -/
theorem Refuses.bind {e : Edit α} {f : α → Edit β} {r : Option EditError} (h : e.Refuses w r)
    (hf : ∀ a w₁, e w = .ok a w₁ → ∃ b w₂, f a w₁ = .ok b w₂) : (e >>= f).Refuses w r := by
  cases r with
  | some x =>
    have h : e w = .error x w := h
    show (e >>= f) w = .error x w
    rw [bind_apply, h]
  | none =>
    obtain ⟨a, w₁, h⟩ := h
    obtain ⟨b, w₂, h₂⟩ := hf a w₁ h
    exact ⟨b, w₂, (bind_of_ok h).trans h₂⟩

theorem lacksContext_of_some {data : Context} (hc : w.graph.context? c = some data) :
    w.graph.lacksContext c = none := by
  unfold lacksContext hasContext Store.contains
  unfold context? at hc
  rw [hc]
  rfl

theorem lacksContext_of_none (hc : w.graph.context? c = none) :
    w.graph.lacksContext c = some (.staleContext c) := by
  unfold lacksContext hasContext Store.contains
  unfold context? at hc
  rw [hc]
  rfl

theorem lacksDeclaration_of_some {data : Declaration} (hd : w.graph.declaration? d = some data) :
    w.graph.lacksDeclaration d = none := by
  unfold lacksDeclaration hasDeclaration Store.contains
  unfold declaration? at hd
  rw [hd]
  rfl

theorem lacksDeclaration_of_none (hd : w.graph.declaration? d = none) :
    w.graph.lacksDeclaration d = some (.staleDeclaration d) := by
  unfold lacksDeclaration hasDeclaration Store.contains
  unfold declaration? at hd
  rw [hd]
  rfl

section Needs

variable {r : Option EditError}

/-- An edit that fails where a context is gone, and may fail later where it is there. -/
theorem refuses_at_context {e : Edit α}
    (hgone : w.graph.context? c = none → e w = .error (.staleContext c) w)
    (hthere : ∀ data, w.graph.context? c = some data → e.Refuses w r) :
    e.Refuses w ((w.graph.lacksContext c).or r) := by
  cases hc : w.graph.context? c with
  | none =>
    rw [lacksContext_of_none hc]
    exact hgone hc
  | some data =>
    rw [lacksContext_of_some hc, Option.none_or]
    exact hthere data hc

theorem refuses_at_declaration {e : Edit α}
    (hgone : w.graph.declaration? d = none → e w = .error (.staleDeclaration d) w)
    (hthere : ∀ data, w.graph.declaration? d = some data → e.Refuses w r) :
    e.Refuses w ((w.graph.lacksDeclaration d).or r) := by
  cases hd : w.graph.declaration? d with
  | none =>
    rw [lacksDeclaration_of_none hd]
    exact hgone hd
  | some data =>
    rw [lacksDeclaration_of_some hd, Option.none_or]
    exact hthere data hd

theorem refuses_needContext {f : Context → Edit α}
    (hf : ∀ data, w.graph.context? c = some data → (f data).Refuses w r) :
    (needContext c >>= f).Refuses w ((w.graph.lacksContext c).or r) := by
  refine refuses_at_context (fun hc => ?_) fun data hc => ?_
  · rw [needContext_bind, hc]
  · have hdata := hf data hc
    unfold Refuses at hdata ⊢
    rw [needContext_bind, hc]
    exact hdata

theorem refuses_needDeclaration {f : Declaration → Edit α}
    (hf : ∀ data, w.graph.declaration? d = some data → (f data).Refuses w r) :
    (needDeclaration d >>= f).Refuses w ((w.graph.lacksDeclaration d).or r) := by
  refine refuses_at_declaration (fun hd => ?_) fun data hd => ?_
  · rw [needDeclaration_bind, hd]
  · have hdata := hf data hd
    unfold Refuses at hdata ⊢
    rw [needDeclaration_bind, hd]
    exact hdata

theorem refuses_needFile {f : FileRecord → Edit α} (hf : ∀ r', (f r').Refuses w none) :
    (needFile t >>= f).Refuses w (w.graph.lacksFile t) := by
  unfold lacksFile fileRecord?
  cases hc : w.graph.context? t.context with
  | none =>
    rw [lacksContext_of_none hc]
    show (needFile t >>= f) w = _
    rw [needFile_bind, hc]
  | some data =>
    rw [lacksContext_of_some hc, Option.none_or, Option.bind_some]
    cases hfile : data.file with
    | none =>
      show (needFile t >>= f) w = _
      rw [needFile_bind, hc]
      dsimp only
      rw [hfile]
    | some record =>
      obtain ⟨a, w', h⟩ := hf record
      refine refuses_ok (a := a) (u := w') ?_
      rw [needFile_bind, hc]
      dsimp only
      rw [hfile]
      exact h

end Needs

/-- An edit that needs one context and then goes through. -/
theorem refuses_context {f : Context → Edit α}
    (hf : ∀ data, w.graph.context? c = some data → (f data).Refuses w none) :
    (needContext c >>= f).Refuses w (w.graph.lacksContext c) := by
  have h := refuses_needContext hf
  rwa [Option.or_none] at h

/-- An edit that needs one declaration and then goes through. -/
theorem refuses_declaration {f : Declaration → Edit α}
    (hf : ∀ data, w.graph.declaration? d = some data → (f data).Refuses w none) :
    (needDeclaration d >>= f).Refuses w (w.graph.lacksDeclaration d) := by
  have h := refuses_needDeclaration hf
  rwa [Option.or_none] at h

/-! ## 3. Edits that change nodes that are there -/

section Nodes

variable (w) (c p target : ContextId) (d : DeclId) (t : TopId)

theorem refuses_addChild :
    (addChild p c).Refuses w ((w.graph.lacksContext p).or (w.graph.lacksNamed c)) := by
  refine refuses_at_context (fun hp => ?_) fun parent hp => ?_
  · rw [addChild_apply, hp]
  · refine refuses_at_context (fun hc => ?_) fun child hc => ?_
    · rw [addChild_apply, hp, hc]
    · have happly := addChild_apply p c w
      rw [hp, hc] at happly
      dsimp only at happly
      rw [hc, Option.any_some]
      cases hanon : child.anonymous with
      | true =>
        rw [hanon] at happly
        exact happly
      | false =>
        rw [hanon] at happly
        show ∃ a w', addChild p c w = .ok a w'
        rw [happly, if_neg Bool.false_ne_true]
        split
        · exact ⟨_, _, rfl⟩
        · split <;> exact ⟨_, _, rfl⟩

theorem refuses_removeChild : (removeChild p c).Refuses w (w.graph.lacksContext p) := by
  refine refuses_context fun parent _ => ?_
  split <;> exact ⟨_, _, rfl⟩

theorem refuses_setKind (kind : ContextKind) :
    (setKind c kind).Refuses w (w.graph.lacksContext c) := by
  refine refuses_context fun data _ => ?_
  split <;> exact ⟨_, _, rfl⟩

theorem refuses_setScopeName (name : QualName) :
    (setScopeName c name).Refuses w (w.graph.lacksContext c) := by
  refine refuses_context fun data _ => ?_
  cases hsame : data.scopeName.sameAs name
  all_goals exact ⟨_, _, rfl⟩

theorem refuses_setPropagates (on : Bool) :
    (setPropagates c on).Refuses w (w.graph.lacksContext c) := by
  rw [← Option.or_none (o := w.graph.lacksContext c)]
  refine refuses_at_context (fun hc => ?_) fun data hc => ?_
  · rw [setPropagates_apply, hc]
  · show ∃ a w', setPropagates c on w = .ok a w'
    rw [setPropagates_apply, hc]
    dsimp only
    split
    · exact ⟨_, _, rfl⟩
    · split <;> exact ⟨_, _, rfl⟩

theorem refuses_addDeclaration : (addDeclaration c d).Refuses w
    ((w.graph.lacksContext c).or (w.graph.lacksDeclaration d)) := by
  rw [← Option.or_none (o := w.graph.lacksDeclaration d)]
  refine refuses_at_context (fun hc => ?_) fun target hc => ?_
  · rw [addDeclaration_apply, hc]
  · refine refuses_at_declaration (fun hd => ?_) fun data hd => ?_
    · rw [addDeclaration_apply, hc, hd]
    · show ∃ a w', addDeclaration c d w = .ok a w'
      rw [addDeclaration_apply, hc, hd]
      dsimp only
      split <;> exact ⟨_, _, rfl⟩

theorem refuses_removeDeclaration : (removeDeclaration c d).Refuses w
    ((w.graph.lacksContext c).or (w.graph.lacksDeclaration d)) := by
  rw [← Option.or_none (o := w.graph.lacksDeclaration d)]
  refine refuses_at_context (fun hc => ?_) fun holder hc => ?_
  · rw [removeDeclaration_apply, hc]
  · refine refuses_at_declaration (fun hd => ?_) fun data hd => ?_
    · rw [removeDeclaration_apply, hc, hd]
    · show ∃ a w', removeDeclaration c d w = .ok a w'
      rw [removeDeclaration_apply, hc, hd]
      dsimp only
      split <;> exact ⟨_, _, rfl⟩

theorem refuses_rename (name : Ident) :
    (rename d name).Refuses w (w.graph.lacksDeclaration d) := by
  refine refuses_declaration fun data _ => ?_
  split
  · exact ⟨_, _, rfl⟩
  · cases data.context <;> exact ⟨_, _, rfl⟩

theorem refuses_setRange (range : Span) :
    (setRange d range).Refuses w (w.graph.lacksDeclaration d) := by
  refine refuses_declaration fun data _ => ?_
  split
  · exact ⟨_, _, rfl⟩
  · by_cases hstart : data.range.start ≠ range.start
    · rw [if_pos hstart]
      cases data.context <;> exact ⟨_, _, rfl⟩
    · rw [if_neg hstart]
      exact ⟨_, _, rfl⟩

theorem refuses_setType (type : Option TypeId) :
    (setType d type).Refuses w (w.graph.lacksDeclaration d) :=
  refuses_declaration fun _ _ => ⟨_, _, rfl⟩

theorem refuses_setInternal_none : (setInternal d none).Refuses w (w.graph.lacksDeclaration d) := by
  refine refuses_declaration fun data hd => ?_
  dsimp only
  split
  · exact ⟨_, _, rfl⟩
  · exact ⟨_, _, linkInternal_of_some hd nofun⟩

theorem refuses_setInternal_some : (setInternal d (some c)).Refuses w
    ((w.graph.lacksDeclaration d).or (w.graph.lacksContext c)) := by
  refine refuses_needDeclaration fun data hd => refuses_context fun held hc => ?_
  split
  · exact ⟨_, _, rfl⟩
  · refine ⟨_, _, linkInternal_of_some hd fun c' hc' => ?_⟩
    cases hc'
    exact ⟨held, hc⟩

/-- An owner that is to be cleared is looked up before it is cleared. -/
theorem refuses_setOwner_none : (setOwner c none).Refuses w (w.graph.lacksContext c) := by
  refine refuses_context fun data hc => ?_
  cases data.owner with
  | none => exact ⟨_, _, changeContext_of_some hc⟩
  | some d =>
    show ((graph >>= fun g => if g.hasDeclaration d then setInternal d none
      else changeContext c ({ · with owner := none })) : Edit Unit).Refuses w none
    by_cases hd : w.graph.hasDeclaration d = true
    · have h := refuses_setInternal_none w d
      unfold lacksDeclaration at h
      rw [if_pos hd] at h
      obtain ⟨a, w', h⟩ := h
      refine refuses_ok (a := a) (u := w') ?_
      rw [graph_bind, if_pos hd]
      exact h
    · refine refuses_ok (a := ()) (u := w.onGraph (·.modifyContext c ({ · with owner := none }))) ?_
      rw [graph_bind, if_neg hd]
      exact changeContext_of_some hc

theorem refuses_setAliased (target : Option DeclId) :
    (setAliased d target).Refuses w (w.graph.lacksDeclaration d) := by
  refine refuses_declaration fun data _ => ?_
  split <;> exact ⟨_, _, rfl⟩

theorem refuses_setNamespaceTarget (target : QualName) :
    (setNamespaceTarget d target).Refuses w (w.graph.lacksDeclaration d) := by
  refine refuses_declaration fun data _ => ?_
  split <;> exact ⟨_, _, rfl⟩

theorem refuses_addImport (position : Option Position) : (addImport c target position).Refuses w
    ((w.graph.lacksContext c).or (w.graph.lacksContext target)) := by
  rw [← Option.or_none (o := w.graph.lacksContext target)]
  refine refuses_at_context (fun hc => ?_) fun data hc => ?_
  · rw [addImport_apply, hc]
  · refine refuses_at_context (fun ht => ?_) fun other ht => ?_
    · rw [addImport_apply, hc, ht]
    · show ∃ a w', addImport c target position w = .ok a w'
      rw [addImport_apply, hc, ht]
      dsimp only
      split
      · exact ⟨_, _, rfl⟩
      · split <;> exact ⟨_, _, rfl⟩

theorem refuses_removeImport :
    (removeImport c target).Refuses w (w.graph.lacksContext c) := by
  rw [← Option.or_none (o := w.graph.lacksContext c)]
  refine refuses_at_context (fun hc => ?_) fun data hc => ?_
  · rw [removeImport_apply, hc]
  · show ∃ a w', removeImport c target w = .ok a w'
    rw [removeImport_apply, hc]
    dsimp only
    split <;> exact ⟨_, _, rfl⟩

theorem refuses_clearImports : (clearImports c).Refuses w (w.graph.lacksContext c) := by
  refine refuses_context fun data hc => ?_
  obtain ⟨n, w', h, _⟩ := removeImports_ok (S := fun _ => True) (data.imports.map (·.context))
    (Option.isSome_iff_exists.mpr ⟨data, hc⟩) trivial
  exact refuses_ok h

theorem refuses_createUse (index : Nat) (range : Span) (before : Option Nat) :
    (createUse c index range before).Refuses w (w.graph.lacksContext c) :=
  refuses_context fun _ _ => ⟨_, _, rfl⟩

theorem refuses_changeUse (place : Nat) (f : Use → Use) :
    (changeUse c place f).Refuses w (w.graph.lacksContext c) := by
  refine refuses_context fun data _ => ?_
  split <;> exact ⟨_, _, rfl⟩

theorem refuses_deleteUse (place : Nat) :
    (deleteUse c place).Refuses w (w.graph.lacksContext c) := by
  refine refuses_context fun data _ => ?_
  split <;> exact ⟨_, _, rfl⟩

theorem refuses_deleteUses : (deleteUses c).Refuses w (w.graph.lacksContext c) :=
  refuses_context fun _ _ => ⟨_, _, rfl⟩

theorem refuses_fileEdit (f : Workspace → Workspace) :
    (needFile t >>= fun _ => update f).Refuses w (w.graph.lacksFile t) :=
  refuses_needFile fun _ => ⟨_, _, rfl⟩

theorem refuses_declarationIndex : (declarationIndex t d).Refuses w
    ((w.graph.lacksDeclaration d).or (w.graph.lacksFile t)) := by
  refine refuses_needDeclaration fun _ _ => refuses_needFile fun r => ?_
  split <;> exact ⟨_, _, rfl⟩

theorem refuses_deleteDeclaration :
    (deleteDeclaration d).Refuses w (w.graph.lacksDeclaration d) := by
  cases hd : w.graph.declaration? d with
  | none =>
    rw [lacksDeclaration_of_none hd]
    show deleteDeclaration d w = _
    rw [deleteDeclaration_apply, hd]
  | some data =>
    rw [lacksDeclaration_of_some hd]
    refine refuses_ok (a := ()) (u := w.discard d data) ?_
    rw [deleteDeclaration_apply, hd]

end Nodes

/-! ## 4. Edits that make nodes -/

theorem refuses_createTop (w : Workspace) (file : FileId) (range : Span) :
    (createTop file range).Refuses w none := ⟨_, _, rfl⟩

theorem refuses_createAnonymous (w : Workspace) (p : ContextId) (range : Span) :
    (createAnonymous p range).Refuses w (w.graph.lacksContext p) :=
  refuses_context fun _ _ => ⟨_, _, rfl⟩

/-- The new context is there when it is put below its parent. -/
theorem refuses_createContext (htidy : w.graph.contexts.Tidy) (p : ContextId) (range : Span) :
    (createContext p range).Refuses w (w.graph.lacksContext p) := by
  refine refuses_context fun parent hp => ?_
  let n := w.graph.nextContext { range := range }
  let w₁ := (newContext { range := range }).after w
  have hn : w₁.graph.context? n = some { range := range } :=
    (Store.get?_insert htidy _ n).trans (if_pos rfl)
  have hp₁ : ∃ parent₁, w₁.graph.context? p = some parent₁ := by
    rw [show w₁.graph.context? p = _ from Store.get?_insert htidy _ p]
    split
    · exact ⟨_, rfl⟩
    · exact ⟨parent, hp⟩
  obtain ⟨parent₁, hp₁⟩ := hp₁
  have hadd := refuses_addChild w₁ n p
  unfold lacksNamed at hadd
  rw [lacksContext_of_some hp₁, lacksContext_of_some hn, hn] at hadd
  obtain ⟨moved, w₂, h₂⟩ := hadd
  exact refuses_ok (a := n) (u := w₂) (bind_of_ok (f := fun _ => pure n) h₂)

/-- The new declaration is there when it is put into its context. -/
theorem refuses_declare (htidy : w.graph.declarations.Tidy) (c : ContextId) (name : Ident)
    (range : Span) (kind : DeclKind) :
    (declare c name range kind).Refuses w (w.graph.lacksContext c) := by
  refine refuses_context fun data hc => ?_
  let made : Declaration := { name := name, range := range, kind := kind }
  let n := w.graph.nextDeclaration made
  let w₁ := (newDeclaration made).after w
  have hn : w₁.graph.declaration? n = some made :=
    (Store.get?_insert htidy _ n).trans (if_pos rfl)
  have hc₁ : w₁.graph.context? c = some data := hc
  have hadd := refuses_addDeclaration w₁ c n
  rw [lacksContext_of_some hc₁, lacksDeclaration_of_some hn] at hadd
  obtain ⟨moved, w₂, h₂⟩ := hadd
  exact refuses_ok (a := n) (u := w₂) (bind_of_ok (f := fun _ => pure n) h₂)

/-- The context that holds a declaration is there. -/
theorem refuses_setDeclarationContext_none (hw : w.graph.Consistent) (d : DeclId) :
    (setDeclarationContext d none).Refuses w (w.graph.lacksDeclaration d) := by
  refine refuses_declaration fun data hd => ?_
  cases hholder : data.context with
  | none => exact ⟨_, _, rfl⟩
  | some c =>
    obtain ⟨f, hf, _⟩ := hw.holds.holder (outline_declaration.mpr ⟨data, hd, rfl⟩) hholder
    obtain ⟨holder, hc, _⟩ := outline_context.mp hf
    have hremove := refuses_removeDeclaration w c d
    rw [lacksContext_of_some hc, lacksDeclaration_of_some hd] at hremove
    exact hremove.bind fun _ _ _ => ⟨_, _, rfl⟩

/-! ## 5. Edits that take nodes away -/

/-- Taking a declaration out of its context takes no node away. -/
theorem live_dropDeclaration (w : Workspace) (c : ContextId) (d : DeclId) :
    (∀ x, ((w.dropDeclaration c d).graph.context? x).isSome = (w.graph.context? x).isSome) ∧
    ∀ x, ((w.dropDeclaration c d).graph.declaration? x).isSome = (w.graph.declaration? x).isSome := by
  have hdrop : SameNodes w.graph (w.graph.drop c d) :=
    Graph.View.Same.drop (fun _ _ => rfl) (fun _ _ => rfl) w.graph c d
  have hregistry : (View.ofGraph Graph.View.nodes).OverlooksRegistry :=
    { graph :=
        { registered := fun _ _ => rfl
          key := fun _ _ => rfl
          declarationKey := fun g d _ => .modifyDeclaration g d fun _ => rfl
          table := fun _ _ _ _ _ => rfl }
      events := fun _ _ _ => rfl }
  have hsync := (View.Same.syncDeclaration hregistry (w.onGraph (·.drop c d)) d).graph
  have hnodes : SameNodes w.graph (w.dropDeclaration c d).graph := hdrop.trans hsync
  exact ⟨hnodes.contexts.isSome_get?, hnodes.declarations.isSome_get?⟩

theorem removeDeclarations_ok (ds : List DeclId) (hc : (w.graph.context? c).isSome)
    (hds : ∀ d ∈ ds, (w.graph.declaration? d).isSome) :
    ∃ w', forEach (fun d => do let _ ← removeDeclaration c d) ds w = .ok () w' := by
  induction ds generalizing w with
  | nil => exact ⟨w, rfl⟩
  | cons d rest ih =>
    obtain ⟨data, hdata⟩ := Option.isSome_iff_exists.mp hc
    obtain ⟨decl, hdecl⟩ := Option.isSome_iff_exists.mp (hds d List.mem_cons_self)
    have hone : ∃ r w₁, removeDeclaration c d w = .ok r w₁ ∧
        (∀ x, (w₁.graph.context? x).isSome = (w.graph.context? x).isSome) ∧
        ∀ x, (w₁.graph.declaration? x).isSome = (w.graph.declaration? x).isSome := by
      rw [removeDeclaration_apply, hdata, hdecl]
      dsimp only
      split
      · exact ⟨_, _, rfl, live_dropDeclaration w c d⟩
      · exact ⟨_, _, rfl, fun _ => rfl, fun _ => rfl⟩
    obtain ⟨r, w₁, h₁, hcontexts, hdecls⟩ := hone
    obtain ⟨w₂, h₂⟩ := ih (w := w₁) ((hcontexts c).trans hc) fun d' hd' =>
      (hdecls d').trans (hds d' (List.mem_cons_of_mem _ hd'))
    have hfirst : (removeDeclaration c d >>= fun _ => (pure () : Edit Unit)) w = .ok () w₁ :=
      bind_of_ok h₁
    exact ⟨w₂, (bind_of_ok hfirst).trans h₂⟩

/-- What a context holds is there. -/
theorem refuses_clearDeclarations (hw : w.graph.Consistent) (c : ContextId) :
    (clearDeclarations c).Refuses w none := by
  let ds := w.graph.localDeclarations c
  suffices h : ∃ w', forEach (fun d => do let _ ← removeDeclaration c d) ds w = .ok () w' by
    obtain ⟨w', h⟩ := h
    exact refuses_ok (a := ds) (u := w') (bind_of_ok (f := fun _ => pure ds) h)
  cases hc : w.graph.context? c with
  | none =>
    have hnone : ds = [] := by
      simp only [ds, localDeclarations, hc]
      rfl
    rw [hnone]
    exact ⟨w, rfl⟩
  | some data =>
    refine removeDeclarations_ok ds (Option.isSome_iff_exists.mpr ⟨data, hc⟩) fun d hd => ?_
    obtain ⟨f, hf, hmem⟩ := mem_localDeclarations_iff.mp hd
    obtain ⟨fd, hfd, _⟩ := hw.holds.own hf hmem
    obtain ⟨decl, hdecl, _⟩ := outline_declaration.mp hfd
    exact Option.isSome_iff_exists.mpr ⟨decl, hdecl⟩

theorem refuses_deleteContext (hw : w.graph.Consistent) (c : ContextId) :
    (deleteContext c).Refuses w (w.graph.lacksContext c) := by
  cases hc : w.graph.context? c with
  | none =>
    rw [lacksContext_of_none hc]
    exact deleteContext_error hc
  | some data =>
    rw [lacksContext_of_some hc]
    obtain ⟨w', data', h, _⟩ := deleteContext_ok hw hc
    exact refuses_ok h

/-- Nothing that is to go is gone already. -/
theorem refuses_clean (hw : w.graph.Consistent) (c : ContextId) (keep : List Node) :
    (clean c keep).Refuses w (w.graph.lacksContext c) := by
  cases hc : w.graph.context? c with
  | none =>
    rw [lacksContext_of_none hc]
    show clean c keep w = _
    have hnone : w.graph.localDeclarations c = [] := by
      unfold localDeclarations
      rw [hc]
      rfl
    unfold clean
    rw [bind_of_ok (show graph w = .ok w.graph w from rfl), hnone]
    refine (bind_of_ok (show forEach _ [] w = .ok () w from rfl)).trans ?_
    rw [needContext_bind, hc]
  | some data =>
    rw [lacksContext_of_some hc]
    obtain ⟨w', h, _⟩ := deletesAll_clean hw (hasContext_iff.mpr ⟨data, hc⟩) keep
    exact refuses_ok h

end Edit

/-! ## 6. Every change -/

theorem Edit.Refuses.outcome {α : Type} {e : Edit α} {w : Workspace} {r : Option EditError}
    (h : e.Refuses w r) : e.error? w = r ∧ ∀ x, e.error? w = some x → e.after w = w :=
  ⟨h.error?, fun _ hx => h.after (h.error?.symm.trans hx)⟩

open Edit in
/-- **A change fails for its arguments only, and changes nothing then.** -/
theorem Change.refuses {w : Workspace} (hw : w.graph.Consistent) (htidy : w.graph.contexts.Tidy)
    (e : Change) : e.error? w = e.refusal w.graph ∧ ∀ x, e.error? w = some x → e.apply w = w := by
  cases e with
  | createTop file range => exact (refuses_createTop w file range).outcome
  | createContext p range => exact (refuses_createContext htidy p range).outcome
  | createAnonymous p range => exact (refuses_createAnonymous w p range).outcome
  | addChild p c => exact (refuses_addChild w c p).outcome
  | removeChild p c => exact (refuses_removeChild w c p).outcome
  | setKind c kind => exact (refuses_setKind w c kind).outcome
  | setScopeName c name => exact (refuses_setScopeName w c name).outcome
  | setPropagates c on => exact (refuses_setPropagates w c on).outcome
  | declare c name range kind =>
    exact (refuses_declare hw.entered.tidy c name range kind).outcome
  | addDeclaration c d => exact (refuses_addDeclaration w c d).outcome
  | removeDeclaration c d => exact (refuses_removeDeclaration w c d).outcome
  | setDeclarationContext d c =>
    cases c with
    | none => exact (refuses_setDeclarationContext_none hw d).outcome
    | some c =>
      exact ((refuses_addDeclaration w c d).bind fun _ _ _ => ⟨(), _, rfl⟩).outcome
  | rename d name => exact (refuses_rename w d name).outcome
  | setRange d range => exact (refuses_setRange w d range).outcome
  | setType d type => exact (refuses_setType w d type).outcome
  | setInternal d internal =>
    cases internal with
    | none => exact (refuses_setInternal_none w d).outcome
    | some c => exact (refuses_setInternal_some w c d).outcome
  | setOwner c owner =>
    cases owner with
    | none => exact (refuses_setOwner_none w c).outcome
    | some d => exact (refuses_setInternal_some w c d).outcome
  | setAliased d target => exact (refuses_setAliased w d target).outcome
  | setNamespaceTarget d target => exact (refuses_setNamespaceTarget w d target).outcome
  | addImport c target position => exact (refuses_addImport w c target position).outcome
  | removeImport c target => exact (refuses_removeImport w c target).outcome
  | clearImports c => exact (refuses_clearImports w c).outcome
  | createUse c index range before => exact (refuses_createUse w c index range before).outcome
  | setUseRange c place range => exact (refuses_changeUse w c place _).outcome
  | setUseIndex c place index => exact (refuses_changeUse w c place _).outcome
  | deleteUse c place => exact (refuses_deleteUse w c place).outcome
  | deleteUses c => exact (refuses_deleteUses w c).outcome
  | register t => exact (refuses_fileEdit w t _).outcome
  | unregister t => exact (refuses_fileEdit w t _).outcome
  | addProblem t p => exact (refuses_fileEdit w t _).outcome
  | clearProblems t => exact (refuses_fileEdit w t _).outcome
  | setFlags t flags => exact (refuses_fileEdit w t _).outcome
  | setHasUses t on => exact (refuses_fileEdit w t _).outcome
  | setIdentity t identity => exact (refuses_fileEdit w t _).outcome
  | declarationIndex t d => exact (refuses_declarationIndex w d t).outcome
  | deleteDeclaration d => exact (refuses_deleteDeclaration w d).outcome
  | clearDeclarations c => exact (refuses_clearDeclarations hw c).outcome
  | deleteContext c => exact (refuses_deleteContext hw c).outcome
  | clean c keep => exact (refuses_clean hw c keep).outcome

namespace Workspace

/-- **A failed change keeps the whole workspace**: stores with their generations and
    free slots, indices, symbol table, memo and journal. It fails exactly if one of
    its arguments is refused, with the first refusal as its error. -/
theorem failed_change_keeps (limits : Limits) (calls : List Call)
    (hfrees : (empty limits).FewFrees calls) (e : Change) :
    let w := (empty limits).run calls
    e.error? w = e.refusal w.graph ∧ ∀ x, e.error? w = some x → e.apply w = w := by
  obtain ⟨_, hkept, _⟩ := kept_run hfrees
  exact e.refuses hkept.kempt.consistent (faithful_run hfrees).linked.tidy

/-- A file with a named and an anonymous context, and a second file that is deleted
    again. -/
def withStaleFile : List Call :=
  [.change (.createTop ⟨0⟩ {}), .change (.createContext ⟨0, 0⟩ {}),
    .change (.createAnonymous ⟨0, 0⟩ {}), .change (.createTop ⟨1⟩ {}),
    .change (.deleteContext ⟨3, 0⟩)]

theorem failed_change_keeps_stale :
    let w := (empty {}).run withStaleFile
    ((Change.addChild ⟨1, 0⟩ ⟨2, 0⟩).error? w = some (.anonymousChild ⟨2, 0⟩) ∧
      (Change.addChild ⟨1, 0⟩ ⟨2, 0⟩).apply w = w) ∧
    ((Change.register ⟨⟨1, 0⟩⟩).error? w = some (.notATop ⟨1, 0⟩) ∧
      (Change.register ⟨⟨1, 0⟩⟩).apply w = w) ∧
    ((Change.clean ⟨3, 0⟩ []).error? w = some (.staleContext ⟨3, 0⟩) ∧
      (Change.clean ⟨3, 0⟩ []).apply w = w) := by
  have hfrees : (empty {}).FewFrees withStaleFile := fewFrees_of_length (by decide)
  have hkeeps := fun e x => (failed_change_keeps {} withStaleFile hfrees e).2 x
  refine ⟨⟨by decide +kernel, hkeeps _ (.anonymousChild ⟨2, 0⟩) (by decide +kernel)⟩,
    ⟨by decide +kernel, hkeeps _ (.notATop ⟨1, 0⟩) (by decide +kernel)⟩,
    ⟨by decide +kernel, hkeeps _ (.staleContext ⟨3, 0⟩) (by decide +kernel)⟩⟩

end Workspace

end ScopeGraph
