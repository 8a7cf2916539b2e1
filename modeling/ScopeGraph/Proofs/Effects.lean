/-
  File:      ScopeGraph/Proofs/Effects.lean
  Subject:   What each edit makes of a workspace, as an equation.

  An edit checks its handles first, in order, and then changes the workspace
  step by step. For every edit of more than one step the equation
  `<edit>_apply` separates the two: which handle it fails at, and the change
  as a plain function on workspaces. From it `after_<edit>` says what the
  workspace can be after the edit, and under which conditions.

  `Edit.Follows R`: an edit leads from every workspace to one that `R` relates
  to it, whether it fails or not. For a preorder `R` it goes through
  sequencing, so that what every step does, the edit does.
-/
import ScopeGraph.Proofs.Calls
import ScopeGraph.Proofs.Views

namespace ScopeGraph

/-! ## 1. Sequencing -/

/-- What two options say alike, they say of two values. -/
theorem exists_of_map_eq {α β : Type} {o o' : Option α} {v : α → β} (h : o'.map v = o.map v)
    {a' : α} (ha : o' = some a') : ∃ a, o = some a ∧ v a = v a' := by
  rw [ha] at h
  exact Option.map_eq_some_iff.mp h.symm

namespace Graph

theorem context?_modifyContext (g : Graph) (c x : ContextId) (f : Context → Context) :
    (g.modifyContext c f).context? x = if x = c then (g.context? x).map f else g.context? x :=
  Store.get?_modify g.contexts c x f

/-- What a change of a context does not touch is the same everywhere. -/
theorem map_context?_modifyContext {α : Type} (g : Graph) (c : ContextId) {f : Context → Context}
    {v : Context → α} (h : ∀ data, v (f data) = v data) (x : ContextId) :
    ((g.modifyContext c f).context? x).map v = (g.context? x).map v := by
  rw [context?_modifyContext]
  split
  · cases g.context? x with
    | none => rfl
    | some data => exact congrArg some (h data)
  · rfl

theorem declaration?_modifyDeclaration (g : Graph) (d x : DeclId) (f : Declaration → Declaration) :
    (g.modifyDeclaration d f).declaration? x =
      if x = d then (g.declaration? x).map f else g.declaration? x :=
  Store.get?_modify g.declarations d x f

theorem map_declaration?_modifyDeclaration {α : Type} (g : Graph) (d : DeclId)
    {f : Declaration → Declaration} {v : Declaration → α} (h : ∀ data, v (f data) = v data)
    (x : DeclId) : ((g.modifyDeclaration d f).declaration? x).map v = (g.declaration? x).map v := by
  rw [declaration?_modifyDeclaration]
  split
  · cases g.declaration? x with
    | none => rfl
    | some data => exact congrArg some (h data)
  · rfl

end Graph

namespace Edit

variable {α β : Type}

theorem bind_apply (e : Edit α) (f : α → Edit β) (w : Workspace) :
    (e >>= f) w = match e w with
      | .ok a w' => f a w'
      | .error x w' => .error x w' := by
  show EStateM.bind e f w = _
  unfold EStateM.bind
  cases e w <;> rfl

theorem bind_of_ok {e : Edit α} {f : α → Edit β} {w w₁ : Workspace} {a : α}
    (h : e w = .ok a w₁) : (e >>= f) w = f a w₁ := by
  rw [bind_apply, h]

theorem updateGraph_bind (f : Graph → Graph) (k : Unit → Edit α) (w : Workspace) :
    (updateGraph f >>= k) w = k () (w.onGraph f) := rfl

theorem warn_bind (x : Warning) (k : Unit → Edit α) (w : Workspace) :
    (warn x >>= k) w = k () (w.warn x) := rfl

theorem graph_bind (k : Graph → Edit α) (w : Workspace) : (graph >>= k) w = k w.graph w := rfl

theorem needContext_bind (c : ContextId) (f : Context → Edit α) (w : Workspace) :
    (needContext c >>= f) w = match w.graph.context? c with
      | some data => f data w
      | none => .error (.staleContext c) w := by
  rw [bind_apply]
  unfold needContext
  cases w.graph.context? c <;> rfl

theorem needDeclaration_bind (d : DeclId) (f : Declaration → Edit α) (w : Workspace) :
    (needDeclaration d >>= f) w = match w.graph.declaration? d with
      | some data => f data w
      | none => .error (.staleDeclaration d) w := by
  rw [bind_apply]
  unfold needDeclaration
  cases w.graph.declaration? d <;> rfl

theorem needFile_bind (t : TopId) (f : FileRecord → Edit α) (w : Workspace) :
    (needFile t >>= f) w = match w.graph.context? t.context with
      | some data =>
        match data.file with
        | some r => f r w
        | none => .error (.notATop t.context) w
      | none => .error (.staleContext t.context) w := by
  rw [bind_apply]
  unfold needFile
  rw [needContext_bind]
  cases w.graph.context? t.context with
  | none => rfl
  | some data => cases h : data.file <;> simp only [h] <;> rfl

/-- A context that is there when it is looked up for a change. -/
theorem changeContext_of_some {c : ContextId} {f : Context → Context} {w : Workspace}
    {data : Context} (hc : w.graph.context? c = some data) :
    changeContext c f w = .ok () (w.onGraph (·.modifyContext c f)) := by
  unfold changeContext
  rw [needContext_bind, hc]
  rfl

/-- A declaration that is there when it is looked up for a change. -/
theorem changeDeclaration_of_some {d : DeclId} {f : Declaration → Declaration} {w : Workspace}
    {data : Declaration} (hd : w.graph.declaration? d = some data) :
    changeDeclaration d f w = .ok () (w.onGraph (·.modifyDeclaration d f)) := by
  unfold changeDeclaration
  rw [needDeclaration_bind, hd]
  rfl

theorem after_eq_of_ok {e : Edit α} {w w' : Workspace} {a : α} (h : e w = .ok a w') :
    e.after w = w' := by
  unfold after
  rw [h]

theorem after_eq_of_error {e : Edit α} {w w' : Workspace} {x : EditError}
    (h : e w = .error x w') : e.after w = w' := by
  unfold after
  rw [h]

theorem after_bind (e : Edit α) (f : α → Edit β) (w : Workspace) :
    (e >>= f).after w = match e w with
      | .ok a w' => (f a).after w'
      | .error _ w' => w' := by
  unfold after
  rw [bind_apply]
  cases e w <;> rfl

theorem bind_eq_ok {e : Edit α} {f : α → Edit β} {w w' : Workspace} {b : β}
    (h : (e >>= f) w = .ok b w') : ∃ a w₁, e w = .ok a w₁ ∧ f a w₁ = .ok b w' := by
  rw [bind_apply] at h
  cases he : e w with
  | ok a w₁ =>
    rw [he] at h
    exact ⟨a, w₁, rfl, h⟩
  | error x w₁ =>
    rw [he] at h
    cases h

/-- The edit leads from every workspace to one that `R` relates to it. -/
def Follows (R : Workspace → Workspace → Prop) (e : Edit α) : Prop := ∀ w, R w (e.after w)

section Follows

variable {R : Workspace → Workspace → Prop} [hR : IsPreorder Workspace R]

theorem follows_pure (a : α) : Follows R (pure a) := fun w => hR.refl w

theorem follows_throw (x : EditError) : Follows R (throw x : Edit α) := fun w => hR.refl w

/-- Where the second part of an edit is looked at only after the first. -/
theorem related_bind {e : Edit α} {f : α → Edit β} {w : Workspace} (he : R w (e.after w))
    (hf : ∀ a w₁, e w = .ok a w₁ → R w₁ ((f a).after w₁)) : R w ((e >>= f).after w) := by
  rw [after_bind]
  unfold after at he
  cases h : e w with
  | error x w₁ =>
    rw [h] at he
    exact he
  | ok a w₁ =>
    rw [h] at he
    exact hR.trans _ _ _ he (hf a w₁ h)

theorem Follows.bind {e : Edit α} {f : α → Edit β} (he : Follows R e)
    (hf : ∀ a, Follows R (f a)) : Follows R (e >>= f) :=
  fun w => related_bind (he w) fun a w₁ _ => hf a w₁

theorem related_needContext {c : ContextId} {f : Context → Edit α} {w : Workspace}
    (hf : ∀ data, w.graph.context? c = some data → R w ((f data).after w)) :
    R w ((needContext c >>= f).after w) := by
  unfold after
  rw [needContext_bind]
  cases hc : w.graph.context? c with
  | none => exact hR.refl w
  | some data => exact hf data hc

theorem follows_needContext (c : ContextId) : Follows R (needContext c) := by
  intro w
  unfold after needContext
  cases w.graph.context? c <;> exact hR.refl w

theorem follows_needDeclaration (d : DeclId) : Follows R (needDeclaration d) := by
  intro w
  unfold after needDeclaration
  cases w.graph.declaration? d <;> exact hR.refl w

theorem follows_needFile (t : TopId) : Follows R (needFile t) := by
  unfold needFile
  refine (follows_needContext _).bind fun data => ?_
  cases data.file with
  | none => exact follows_throw _
  | some r => exact follows_pure r

theorem follows_graph : Follows R graph := fun w => hR.refl w

omit hR in
theorem Follows.of_ok {e : Edit α} {w w' : Workspace} {a : α} (he : Follows R e)
    (h : e w = .ok a w') : R w w' := by
  have hw := he w
  rw [after_eq_of_ok h] at hw
  exact hw

theorem follows_forEach {f : α → Edit Unit} (hf : ∀ a, Follows R (f a)) (as : List α) :
    Follows R (forEach f as) := by
  induction as with
  | nil => exact follows_pure ()
  | cons a rest ih => exact (hf a).bind fun _ => ih

omit hR in
theorem follows_update {f : Workspace → Workspace} (hf : ∀ w, R w (f w)) : Follows R (update f) :=
  hf

end Follows

end Edit

namespace Graph

variable (g : Graph)

/-- A child put into a parent's list by where it starts, with the names it
    shares. -/
def linkChild (p c : ContextId) : Graph :=
  let start := g.startOfContext c
  let startOf := g.startOfContext
  let g := g.modifyContext p fun data =>
    { data with children := insertByStart startOf c start data.children }
  let g := g.modifyContext c ({ · with parent := some p })
  g.shareWithParent c

/-- The graph with a context that propagates, and that gave out its names. -/
def switchOn (c : ContextId) : Graph :=
  (g.modifyContext c ({ · with propagates := true })).shareWithParent c

/-- The graph with a context that took back its names, and does not propagate. -/
def switchOff (c : ContextId) : Graph :=
  (g.withdrawFromParent c).modifyContext c ({ · with propagates := false })

/-- The declaration that opens a context. -/
def ownerOf? (c : ContextId) : Option DeclId := (g.context? c).bind (·.owner)

/-- The first part of a new link: what the declaration opened has no owner. -/
def letGo (d : DeclId) (previous : Option ContextId) : Graph :=
  previous.elim g (g.clearOwner · d)

/-- The second part: another declaration that opened the context does so no more. -/
def displace (d : DeclId) (c : ContextId) : Graph :=
  match g.ownerOf? c with
  | some e => if e = d then g else g.clearInternal e c
  | none => g

/-- A declaration opens another context, or none. -/
def linkInternal (d : DeclId) (previous internal : Option ContextId) : Graph :=
  let g := g.letGo d previous
  let g := internal.elim g fun c => (g.displace d c).modifyContext c ({ · with owner := some d })
  g.modifyDeclaration d ({ · with internal := internal })

end Graph

namespace Workspace

/-- A change that depends on something that may not be there. -/
def whenSome {α : Type} (o : Option α) (f : α → Workspace → Workspace) (w : Workspace) :
    Workspace :=
  match o with
  | some a => f a w
  | none => w

section Related

variable {α : Type} {R : Workspace → Workspace → Prop} [hR : IsPreorder Workspace R]

theorem related_whenSome {w : Workspace} {o : Option α} {f : α → Workspace → Workspace}
    (h : ∀ a, R w (f a w)) : R w (w.whenSome o f) := by
  cases o with
  | none => exact hR.refl w
  | some a => exact h a

end Related

/-! ## 2. Declarations -/

/-- A declaration taken out of what holds it and put into a context. -/
def moveDeclaration (w : Workspace) (c : ContextId) (d : DeclId) (previous : Option ContextId) :
    Workspace :=
  let w := whenSome previous (fun p w => w.onGraph (·.detach p d)) w
  let w := w.onGraph (·.attach c d)
  let w := w.onGraph (·.modifyDeclaration d ({ · with context := some c }))
  w.syncDeclaration d

/-- A declaration taken out of its context. -/
def dropDeclaration (w : Workspace) (c : ContextId) (d : DeclId) : Workspace :=
  let w := w.onGraph (·.detach c d)
  let w := w.onGraph (·.modifyDeclaration d ({ · with context := none }))
  w.syncDeclaration d

/-- A declaration under another name. -/
def renameDeclaration (w : Workspace) (d : DeclId) (data : Declaration) (name : Ident) :
    Workspace :=
  let w := whenSome data.context (fun c w => w.onGraph fun g =>
    (g.recallNames c [(data.name, d)]).spreadNames c [(name, d)]) w
  let w := w.onGraph (·.modifyDeclaration d ({ · with name := name }))
  w.syncDeclaration d

/-- A declaration at another place. -/
def placeDeclaration (w : Workspace) (d : DeclId) (data : Declaration) (range : Span) :
    Workspace :=
  let w := w.onGraph (·.modifyDeclaration d ({ · with range := range }))
  if data.range.start ≠ range.start then
    whenSome data.context (fun c w => w.onGraph fun g => g.modifyLocals c fun l =>
      if d ∈ l.ordered then (l.displace d).place g.startOfDeclaration d range.start else l) w
  else w

/-- A declaration taken out of all that refers to it, and freed. -/
def discard (w : Workspace) (d : DeclId) (data : Declaration) : Workspace :=
  let top := data.context.bind w.graph.topOf?
  let w := whenSome data.context (fun c w => w.onGraph (·.detach c d)) w
  let w := w.onGraph (·.modifyDeclaration d ({ · with key := none }))
  let w := whenSome data.key (fun key w => w.changeTable (.removeDeclaration key d)) w
  let w := whenSome data.internal (fun c w => w.onGraph (·.clearOwner c d)) w
  let w := whenSome top (fun t w => w.onGraph (·.modifyContext t.context fun data =>
    { data with file := data.file.map (·.forget d) })) w
  w.onGraph fun g => { g with declarations := g.declarations.erase d }

/-! ## 3. Contexts -/

/-- A context put below another one, away from where it was. -/
def adopt (w : Workspace) (p c : ContextId) (parent child : Context) : Workspace :=
  let w := if parent.range.encloses child.range then w else w.warn .childOutsideParent
  let w := whenSome child.parent (fun q w => w.onGraph (·.unlinkChild q c)) w
  let w := w.onGraph (·.linkChild p c)
  w.registerSubtree c parent.registered

/-- A context taken away from its parent. -/
def abandon (w : Workspace) (p c : ContextId) : Workspace :=
  let w := w.onGraph (·.unlinkChild p c)
  if w.graph.hasContext c then w.registerSubtree c false else w

/-- A context whose own links to its owner and to the table are cut. -/
def sever (w : Workspace) (c : ContextId) (data : Context) : Workspace :=
  let w := w.onGraph (·.modifyContext c fun data => { data with
    file := data.file.map ({ · with deleting := true })
    owner := none
    key := none
    registered := false })
  let w := whenSome data.owner (fun d w => w.onGraph (·.clearInternal d c)) w
  whenSome data.key (fun key w => w.changeTable (.removeContext key c)) w

/-- A context taken from below its parent, forgotten, and freed. -/
def release (w : Workspace) (c : ContextId) (data : Context) : Workspace :=
  let w := whenSome data.parent (fun p w =>
    if data.anonymous then w else w.onGraph (·.unlinkChild p c)) w
  let w := if data.isTop then { w with memo := w.memo.forgetTop ⟨c⟩ } else w
  w.onGraph fun g => { g with contexts := g.contexts.erase c }

/-! ## 4. Imports -/

/-- An import written at another position. -/
def setImportPosition (w : Workspace) (c target : ContextId) (position : Option Position) :
    Workspace :=
  w.onGraph (·.modifyContext c fun data => { data with
    imports := data.imports.modify (data.imports.findIdx (·.context = target))
      ({ · with position := position }) })

/-- One import more, known at both ends. -/
def linkImport (w : Workspace) (c target : ContextId) (position : Option Position) : Workspace :=
  let w := w.onGraph (·.modifyContext c fun data =>
    { data with imports := data.imports ++ [⟨target, position⟩] })
  w.onGraph (·.modifyContext target fun data => { data with importers := data.importers ++ [c] })

/-- One import fewer, at both ends. -/
def unlinkImport (w : Workspace) (c target : ContextId) : Workspace :=
  let w := w.onGraph (·.modifyContext c fun data => { data with
    imports := data.imports.eraseP (·.context = target) })
  w.onGraph (·.modifyContext target fun data => { data with
    importers := data.importers.filter (· ≠ c) })

/-- A file that imports what is no file gives a warning. -/
def warnUnlessTop (w : Workspace) (isTop : Bool) (target : ContextId) : Workspace :=
  if isTop && (w.graph.top? target).isNone then w.warn .nonTopImported else w

/-- What may depend on the imports of a file forgotten; other contexts have
    nothing in the memo. -/
def forgetIf (w : Workspace) (isTop : Bool) (c : ContextId) : Workspace :=
  if isTop then w.forgetImportsOf c else w

theorem graph_forgetIf (w : Workspace) (isTop : Bool) (c : ContextId) :
    (w.forgetIf isTop c).graph = w.graph := by
  cases isTop <;> rfl

end Workspace

/-! ## 5. The equations -/

namespace Edit

open ScopeGraph.Graph (SameNodes View)

theorem addDeclaration_apply (c : ContextId) (d : DeclId) (w : Workspace) :
    addDeclaration c d w =
      match w.graph.context? c with
      | none => .error (.staleContext c) w
      | some _ =>
        match w.graph.declaration? d with
        | none => .error (.staleDeclaration d) w
        | some data =>
          if data.context = some c then .ok false w
          else .ok true (w.moveDeclaration c d data.context) := by
  unfold addDeclaration
  rw [needContext_bind]
  cases w.graph.context? c with
  | none => rfl
  | some _ =>
    simp only [needDeclaration_bind]
    cases hd : w.graph.declaration? d with
    | none => rfl
    | some data =>
      by_cases h : data.context = some c
      · simp only [h, if_true]
        rfl
      · simp only [h, if_false, Workspace.moveDeclaration]
        cases data.context with
        | none =>
          let w₁ := w.onGraph (·.attach c d)
          obtain ⟨late, hlate⟩ := (SameNodes.attach w.graph c d).exists_declaration hd
          have hlate : w₁.graph.declaration? d = some late := hlate
          simp only [updateGraph_bind]
          rw [bind_of_ok (changeDeclaration_of_some hlate)]
          rfl
        | some p =>
          let w₁ := (w.onGraph (·.detach p d)).onGraph (·.attach c d)
          obtain ⟨out, hout⟩ := (SameNodes.detach w.graph p d).exists_declaration hd
          obtain ⟨late, hlate⟩ := (SameNodes.attach _ c d).exists_declaration hout
          have hlate : w₁.graph.declaration? d = some late := hlate
          simp only [updateGraph_bind]
          rw [bind_of_ok (changeDeclaration_of_some hlate)]
          rfl

theorem after_addDeclaration {P : Workspace → Prop} {c : ContextId} {d : DeclId} {w : Workspace}
    (hkeep : P w)
    (hmove : ∀ target data, w.graph.context? c = some target → w.graph.declaration? d = some data →
      data.context ≠ some c → P (w.moveDeclaration c d data.context)) :
    P ((addDeclaration c d).after w) := by
  unfold after
  rw [addDeclaration_apply]
  cases hc : w.graph.context? c with
  | none => exact hkeep
  | some target =>
    cases hd : w.graph.declaration? d with
    | none => exact hkeep
    | some data =>
      by_cases h : data.context = some c
      · simp only [if_pos h]
        exact hkeep
      · simp only [if_neg h]
        exact hmove target data hc hd h

theorem removeDeclaration_apply (c : ContextId) (d : DeclId) (w : Workspace) :
    removeDeclaration c d w =
      match w.graph.context? c with
      | none => .error (.staleContext c) w
      | some _ =>
        match w.graph.declaration? d with
        | none => .error (.staleDeclaration d) w
        | some data =>
          if data.context = some c then .ok true (w.dropDeclaration c d) else .ok false w := by
  unfold removeDeclaration
  rw [needContext_bind]
  cases w.graph.context? c with
  | none => rfl
  | some _ =>
    simp only [needDeclaration_bind]
    cases hd : w.graph.declaration? d with
    | none => rfl
    | some data =>
      by_cases h : data.context = some c
      · simp only [h, ne_eq, not_true_eq_false, if_true, if_false]
        let w₁ := w.onGraph (·.detach c d)
        obtain ⟨late, hlate⟩ := (SameNodes.detach w.graph c d).exists_declaration hd
        have hlate : w₁.graph.declaration? d = some late := hlate
        rw [updateGraph_bind, bind_of_ok (changeDeclaration_of_some hlate)]
        rfl
      · simp only [h, ne_eq, not_false_eq_true, if_true, if_false]
        rfl

theorem after_removeDeclaration {P : Workspace → Prop} {c : ContextId} {d : DeclId} {w : Workspace}
    (hkeep : P w)
    (hdrop : ∀ holder data, w.graph.context? c = some holder → w.graph.declaration? d = some data →
      data.context = some c → P (w.dropDeclaration c d)) :
    P ((removeDeclaration c d).after w) := by
  unfold after
  rw [removeDeclaration_apply]
  cases hc : w.graph.context? c with
  | none => exact hkeep
  | some holder =>
    cases hd : w.graph.declaration? d with
    | none => exact hkeep
    | some data =>
      by_cases h : data.context = some c
      · simp only [if_pos h]
        exact hdrop holder data hc hd h
      · simp only [if_neg h]
        exact hkeep

theorem rename_apply (d : DeclId) (name : Ident) (w : Workspace) :
    rename d name w =
      match w.graph.declaration? d with
      | none => .error (.staleDeclaration d) w
      | some data => if data.name = name then .ok () w else .ok () (w.renameDeclaration d data name) := by
  unfold rename
  rw [needDeclaration_bind]
  cases w.graph.declaration? d with
  | none => rfl
  | some data =>
    by_cases h : data.name = name
    · simp only [h, if_true]
      rfl
    · simp only [h, if_false]
      cases hc : data.context <;> simp only [Workspace.renameDeclaration, hc] <;> rfl

theorem after_rename {P : Workspace → Prop} {d : DeclId} {name : Ident} {w : Workspace}
    (hkeep : P w)
    (hrename : ∀ data, w.graph.declaration? d = some data → data.name ≠ name →
      P (w.renameDeclaration d data name)) : P ((rename d name).after w) := by
  unfold after
  rw [rename_apply]
  cases hd : w.graph.declaration? d with
  | none => exact hkeep
  | some data =>
    by_cases h : data.name = name
    · simp only [if_pos h]
      exact hkeep
    · simp only [if_neg h]
      exact hrename data hd h

theorem setRange_apply (d : DeclId) (range : Span) (w : Workspace) :
    setRange d range w =
      match w.graph.declaration? d with
      | none => .error (.staleDeclaration d) w
      | some data =>
        if data.range = range then .ok () w else .ok () (w.placeDeclaration d data range) := by
  unfold setRange
  rw [needDeclaration_bind]
  cases w.graph.declaration? d with
  | none => rfl
  | some data =>
    by_cases h : data.range = range
    · simp only [h, if_true]
      rfl
    · by_cases hs : data.range.start = range.start
      · simp only [h, if_false, Workspace.placeDeclaration, hs, ne_eq, not_true_eq_false]
        rfl
      · simp only [h, if_false, Workspace.placeDeclaration, hs, ne_eq, not_false_eq_true, if_true]
        cases data.context <;> rfl

theorem after_setRange {P : Workspace → Prop} {d : DeclId} {range : Span} {w : Workspace}
    (hkeep : P w)
    (hplace : ∀ data, w.graph.declaration? d = some data → data.range ≠ range →
      P (w.placeDeclaration d data range)) : P ((setRange d range).after w) := by
  unfold after
  rw [setRange_apply]
  cases hd : w.graph.declaration? d with
  | none => exact hkeep
  | some data =>
    by_cases h : data.range = range
    · simp only [if_pos h]
      exact hkeep
    · simp only [if_neg h]
      exact hplace data hd h

theorem deleteDeclaration_apply (d : DeclId) (w : Workspace) :
    deleteDeclaration d w =
      match w.graph.declaration? d with
      | none => .error (.staleDeclaration d) w
      | some data => .ok () (w.discard d data) := by
  unfold deleteDeclaration
  rw [needDeclaration_bind]
  cases hd : w.graph.declaration? d with
  | none => rfl
  | some data =>
    -- the declaration is there, with its key, after it was taken out of its context
    have hlate : ∀ c, (w.graph.detach c d).declaration? d = some data := by
      intro c
      unfold Graph.declaration?
      rw [Graph.declarations_detach]
      exact hd
    simp only [graph_bind, Workspace.discard]
    cases data.context.bind w.graph.topOf? <;> cases data.context <;>
      simp only [updateGraph_bind, needDeclaration_bind, Workspace.onGraph, hlate, hd] <;>
      cases data.key <;> cases data.internal <;> rfl

theorem after_deleteDeclaration {P : Workspace → Prop} {d : DeclId} {w : Workspace} (hkeep : P w)
    (hdiscard : ∀ data, w.graph.declaration? d = some data → P (w.discard d data)) :
    P ((deleteDeclaration d).after w) := by
  unfold after
  rw [deleteDeclaration_apply]
  cases hd : w.graph.declaration? d with
  | none => exact hkeep
  | some data => exact hdiscard data hd

theorem linkChild_of_some {p c : ContextId} {w : Workspace} {parent child : Context}
    (hp : w.graph.context? p = some parent) (hc : w.graph.context? c = some child) :
    linkChild p c w = .ok () (w.onGraph (·.linkChild p c)) := by
  let listed (data : Context) : Context := { data with
    children := insertByStart w.graph.startOfContext c (w.graph.startOfContext c) data.children }
  have hnodes : SameNodes w.graph (w.graph.modifyContext p listed) :=
    View.Same.modifyContext _ p fun _ => rfl
  obtain ⟨late, hlate⟩ := hnodes.exists_context hc
  have hlate : (w.onGraph (·.modifyContext p listed)).graph.context? c = some late := hlate
  unfold linkChild
  rw [graph_bind, bind_of_ok (changeContext_of_some hp), bind_of_ok (changeContext_of_some hlate)]
  rfl

theorem takeContext_of_some {d : DeclId} {c : ContextId} {w : Workspace} {data : Context}
    (hc : w.graph.context? c = some data) :
    takeContext d c w = .ok () (w.onGraph fun g =>
      (g.displace d c).modifyContext c ({ · with owner := some d })) := by
  have howner : w.graph.ownerOf? c = data.owner := by
    unfold Graph.ownerOf?
    rw [hc]
    rfl
  unfold takeContext
  simp only [needContext_bind, hc, Workspace.onGraph, Graph.displace, howner]
  cases data.owner with
  | none => exact changeContext_of_some hc
  | some e =>
    by_cases he : e = d
    · simp only [he, ne_eq, not_true_eq_false, if_true, if_false]
      exact changeContext_of_some hc
    · simp only [he, ne_eq, not_false_eq_true, if_true, if_false, updateGraph_bind]
      exact changeContext_of_some hc

theorem linkInternal_of_some {d : DeclId} {previous internal : Option ContextId} {w : Workspace}
    {data : Declaration} (hd : w.graph.declaration? d = some data)
    (hlive : ∀ c, internal = some c → ∃ held, w.graph.context? c = some held) :
    linkInternal d previous internal w =
      .ok () (w.onGraph (·.linkInternal d previous internal)) := by
  let w₁ := w.onGraph (·.letGo d previous)
  have hletGo : SameNodes w.graph w₁.graph := by
    cases previous with
    | none => exact .refl _
    | some p => exact View.Same.clearOwner (fun _ _ => rfl) w.graph p d
  cases internal with
  | none =>
    have hrest : linkInternal d previous none w =
        changeDeclaration d ({ · with internal := none }) w₁ := by
      cases previous <;> rfl
    obtain ⟨late, hlate⟩ := hletGo.exists_declaration hd
    rw [hrest]
    exact changeDeclaration_of_some hlate
  | some c =>
    have hrest : linkInternal d previous (some c) w = (takeContext d c >>= fun _ =>
        changeDeclaration d ({ · with internal := some c })) w₁ := by
      cases previous <;> rfl
    obtain ⟨held, hc⟩ := hlive c rfl
    obtain ⟨late, hlate⟩ := hletGo.exists_context hc
    have hdisplace : SameNodes w₁.graph (w₁.graph.displace d c) := by
      unfold Graph.displace
      split
      · split
        · exact .refl _
        · exact View.Same.clearInternal (fun _ _ => rfl) _ _ _
      · exact .refl _
    let w₂ := w₁.onGraph fun g => (g.displace d c).modifyContext c ({ · with owner := some d })
    have hnodes : SameNodes w.graph w₂.graph :=
      (hletGo.trans hdisplace).trans (View.Same.modifyContext _ c fun _ => rfl)
    obtain ⟨late', hlate'⟩ := hnodes.exists_declaration hd
    rw [hrest, bind_of_ok (takeContext_of_some hlate)]
    exact changeDeclaration_of_some hlate'

/-- What `setInternal` comes to if both ends are there. -/
theorem setInternal_of_some {d : DeclId} {internal : Option ContextId} {w : Workspace}
    {data : Declaration} (hd : w.graph.declaration? d = some data)
    (hlive : ∀ c, internal = some c → ∃ held, w.graph.context? c = some held) :
    setInternal d internal w = .ok () (if data.internal = internal then w
      else w.onGraph (·.linkInternal d data.internal internal)) := by
  have hstart : setInternal d internal w = (if data.internal = internal then pure ()
      else linkInternal d data.internal internal) w := by
    unfold setInternal
    simp only [needDeclaration_bind, hd]
    cases internal with
    | none => rfl
    | some c =>
      obtain ⟨held, hc⟩ := hlive c rfl
      simp only [needContext_bind, hc]
  rw [hstart]
  split
  · rfl
  · exact linkInternal_of_some hd hlive

theorem after_setInternal {P : Workspace → Prop} {d : DeclId} {internal : Option ContextId}
    {w : Workspace} (hkeep : P w)
    (hlink : ∀ data, w.graph.declaration? d = some data →
      (∀ c, internal = some c → ∃ held, w.graph.context? c = some held) →
      P (w.onGraph (·.linkInternal d data.internal internal))) :
    P ((setInternal d internal).after w) := by
  cases hd : w.graph.declaration? d with
  | none =>
    unfold setInternal after
    rw [needDeclaration_bind, hd]
    exact hkeep
  | some data =>
    by_cases hlive : ∀ c, internal = some c → ∃ held, w.graph.context? c = some held
    · rw [after_eq_of_ok (setInternal_of_some hd hlive)]
      split
      · exact hkeep
      · exact hlink data hd hlive
    · obtain ⟨c, hc⟩ := Classical.not_forall.mp hlive
      obtain ⟨rfl, hgone⟩ := Classical.not_imp.mp hc
      have hnone : w.graph.context? c = none :=
        Option.eq_none_iff_forall_ne_some.mpr fun held hheld => hgone ⟨held, hheld⟩
      unfold setInternal after
      rw [needDeclaration_bind, hd]
      dsimp only
      rw [needContext_bind, hnone]
      exact hkeep

theorem addChild_apply (p c : ContextId) (w : Workspace) :
    addChild p c w =
      match w.graph.context? p with
      | none => .error (.staleContext p) w
      | some parent =>
        match w.graph.context? c with
        | none => .error (.staleContext c) w
        | some child =>
          if child.anonymous then .error (.anonymousChild c) w
          else if child.parent = some p ∧ c ∈ parent.children then .ok false w
          else if w.graph.isAtOrAbove c p then .ok false (w.warn .childAboveParent)
          else .ok true (w.adopt p c parent child) := by
  unfold addChild
  rw [needContext_bind]
  cases hp : w.graph.context? p with
  | none => rfl
  | some parent =>
    simp only [needContext_bind]
    cases hc : w.graph.context? c with
    | none => rfl
    | some child =>
      by_cases ha : child.anonymous = true
      · simp only [ha, if_true]
        rfl
      · by_cases hl : child.parent = some p ∧ c ∈ parent.children
        · simp only [if_neg ha, if_pos hl]
          rfl
        · simp only [if_neg ha, if_neg hl, bind_apply, graph]
          by_cases hu : w.graph.isAtOrAbove c p = true
          · simp only [if_pos hu]
            rfl
          · simp only [if_neg hu, Workspace.adopt]
            -- both ends are there after the child left the parent it had
            have hlink : ∀ w' : Workspace, SameNodes w.graph w'.graph →
                (do linkChild p c; update (·.registerSubtree c parent.registered); return true :
                  Edit Bool) w' =
                .ok true ((w'.onGraph (·.linkChild p c)).registerSubtree c parent.registered) := by
              intro w' hnodes
              obtain ⟨_, hp'⟩ := hnodes.exists_context hp
              obtain ⟨_, hc'⟩ := hnodes.exists_context hc
              rw [bind_of_ok (linkChild_of_some hp' hc')]
              rfl
            have hcut := SameNodes.unlinkChild w.graph
            cases parent.range.encloses child.range with
            | true =>
              simp only [Bool.not_true, Bool.false_eq_true, if_false]
              cases child.parent with
              | none => exact hlink w (.refl _)
              | some q =>
                simp only [updateGraph_bind]
                exact hlink (w.onGraph (·.unlinkChild q c)) (hcut q c)
            | false =>
              simp only [Bool.not_false, if_true, warn_bind]
              let w₁ := w.warn .childOutsideParent
              cases child.parent with
              | none => exact hlink w₁ (.refl _)
              | some q =>
                simp only [updateGraph_bind]
                exact hlink (w₁.onGraph (·.unlinkChild q c)) (hcut q c)

theorem after_addChild {P : Workspace → Prop} {p c : ContextId} {w : Workspace} (hkeep : P w)
    (hwarn : P (w.warn .childAboveParent))
    (hadopt : ∀ parent child, w.graph.context? p = some parent → w.graph.context? c = some child →
      child.anonymous = false → ¬ (child.parent = some p ∧ c ∈ parent.children) →
      w.graph.isAtOrAbove c p = false → P (w.adopt p c parent child)) :
    P ((addChild p c).after w) := by
  unfold after
  rw [addChild_apply]
  cases hp : w.graph.context? p with
  | none => exact hkeep
  | some parent =>
    cases hc : w.graph.context? c with
    | none => exact hkeep
    | some child =>
      by_cases ha : child.anonymous = true
      · simp only [if_pos ha]
        exact hkeep
      · by_cases hl : child.parent = some p ∧ c ∈ parent.children
        · simp only [if_neg ha, if_pos hl]
          exact hkeep
        · by_cases hu : w.graph.isAtOrAbove c p = true
          · simp only [if_neg ha, if_neg hl, if_pos hu]
            exact hwarn
          · simp only [if_neg ha, if_neg hl, if_neg hu]
            exact hadopt parent child hp hc (Bool.eq_false_iff.mpr ha) hl (Bool.eq_false_iff.mpr hu)

theorem removeChild_apply (p c : ContextId) (w : Workspace) :
    removeChild p c w =
      match w.graph.context? p with
      | none => .error (.staleContext p) w
      | some parent =>
        if c ∈ parent.children then .ok true (w.abandon p c) else .ok false w := by
  unfold removeChild
  rw [needContext_bind]
  cases w.graph.context? p with
  | none => rfl
  | some parent =>
    by_cases h : c ∈ parent.children
    · simp only [h, not_true_eq_false, if_true, if_false]
      rfl
    · simp only [h, not_false_eq_true, if_true, if_false]
      rfl

theorem after_removeChild {P : Workspace → Prop} {p c : ContextId} {w : Workspace} (hkeep : P w)
    (habandon : ∀ parent, w.graph.context? p = some parent → c ∈ parent.children →
      P (w.abandon p c)) : P ((removeChild p c).after w) := by
  unfold after
  rw [removeChild_apply]
  cases hp : w.graph.context? p with
  | none => exact hkeep
  | some parent =>
    by_cases h : c ∈ parent.children
    · simp only [if_pos h]
      exact habandon parent hp h
    · simp only [if_neg h]
      exact hkeep

theorem setKind_apply (c : ContextId) (kind : ContextKind) (w : Workspace) :
    setKind c kind w =
      match w.graph.context? c with
      | none => .error (.staleContext c) w
      | some data =>
        if data.kind = kind then .ok () w
        else .ok () ((w.onGraph (·.modifyContext c ({ · with kind := kind }))).syncContext c) := by
  unfold setKind
  rw [needContext_bind]
  cases w.graph.context? c with
  | none => rfl
  | some data =>
    by_cases h : data.kind = kind
    · simp only [h, if_true]
      rfl
    · simp only [h, if_false]
      rfl

theorem after_setKind {P : Workspace → Prop} {c : ContextId} {kind : ContextKind} {w : Workspace}
    (hkeep : P w)
    (hset : ∀ data, w.graph.context? c = some data → data.kind ≠ kind →
      P ((w.onGraph (·.modifyContext c ({ · with kind := kind }))).syncContext c)) :
    P ((setKind c kind).after w) := by
  unfold after
  rw [setKind_apply]
  cases hc : w.graph.context? c with
  | none => exact hkeep
  | some data =>
    by_cases h : data.kind = kind
    · simp only [if_pos h]
      exact hkeep
    · simp only [if_neg h]
      exact hset data hc h

theorem setScopeName_apply (c : ContextId) (name : QualName) (w : Workspace) :
    setScopeName c name w =
      match w.graph.context? c with
      | none => .error (.staleContext c) w
      | some data =>
        let w' := w.onGraph (·.modifyContext c ({ · with scopeName := name }))
        .ok () (if data.scopeName.sameAs name then w' else w'.syncSubtree c) := by
  unfold setScopeName
  rw [needContext_bind]
  cases w.graph.context? c with
  | none => rfl
  | some data =>
    dsimp only
    cases data.scopeName.sameAs name <;> rfl

theorem after_setScopeName {P : Workspace → Prop} {c : ContextId} {name : QualName} {w : Workspace}
    (hkeep : P w)
    (hsame : ∀ data, w.graph.context? c = some data → data.scopeName.path = name.path →
      P (w.onGraph (·.modifyContext c ({ · with scopeName := name }))))
    (hset : ∀ data, w.graph.context? c = some data → data.scopeName.path ≠ name.path →
      P ((w.onGraph (·.modifyContext c ({ · with scopeName := name }))).syncSubtree c)) :
    P ((setScopeName c name).after w) := by
  unfold after
  rw [setScopeName_apply]
  cases hc : w.graph.context? c with
  | none => exact hkeep
  | some data =>
    by_cases h : data.scopeName.sameAs name = true
    · simp only [if_pos h]
      exact hsame data hc (beq_iff_eq.mp h)
    · simp only [if_neg h]
      exact hset data hc fun e => h (beq_iff_eq.mpr e)

theorem setPropagates_apply (c : ContextId) (on : Bool) (w : Workspace) :
    setPropagates c on w =
      match w.graph.context? c with
      | none => .error (.staleContext c) w
      | some data =>
        if data.propagates = on then .ok () w
        else .ok () (w.onGraph fun g => if on then g.switchOn c else g.switchOff c) := by
  unfold setPropagates
  rw [needContext_bind]
  cases hc : w.graph.context? c with
  | none => rfl
  | some data =>
    by_cases h : data.propagates = on
    · simp only [if_pos h]
      rfl
    · simp only [if_neg h]
      cases on with
      | true => exact bind_of_ok (changeContext_of_some hc)
      | false =>
        have hnodes : SameNodes w.graph (w.graph.withdrawFromParent c) :=
          View.Same.withdrawFromParent (fun _ _ _ => rfl) w.graph c
        obtain ⟨late, hlate⟩ := hnodes.exists_context hc
        exact changeContext_of_some (w := w.onGraph (·.withdrawFromParent c)) hlate

theorem after_setPropagates {P : Workspace → Prop} {c : ContextId} {on : Bool} {w : Workspace}
    (hkeep : P w)
    (hon : ∀ data, w.graph.context? c = some data → data.propagates = false →
      P (w.onGraph (·.switchOn c)))
    (hoff : ∀ data, w.graph.context? c = some data → data.propagates = true →
      P (w.onGraph (·.switchOff c))) : P ((setPropagates c on).after w) := by
  unfold after
  rw [setPropagates_apply]
  cases hc : w.graph.context? c with
  | none => exact hkeep
  | some data =>
    by_cases h : data.propagates = on
    · simp only [if_pos h]
      exact hkeep
    · simp only [if_neg h]
      cases on with
      | true => exact hon data hc (Bool.eq_false_iff.mpr h)
      | false => exact hoff data hc (Bool.not_eq_false _ ▸ h)

theorem after_setOwner {P : Workspace → Prop} {c : ContextId} {owner : Option DeclId}
    {w : Workspace} (hkeep : P w)
    (hlink : ∀ d internal data, w.graph.declaration? d = some data →
      (∀ c, internal = some c → ∃ held, w.graph.context? c = some held) →
      P (w.onGraph (·.linkInternal d data.internal internal)))
    (hclear : ∀ data, w.graph.context? c = some data →
      (∀ d, data.owner = some d → w.graph.declaration? d = none) →
      P (w.onGraph (·.modifyContext c ({ · with owner := none })))) :
    P ((setOwner c owner).after w) := by
  cases owner with
  | some d => exact after_setInternal hkeep (hlink d (some c))
  | none =>
    unfold setOwner after
    dsimp only
    rw [needContext_bind]
    cases hc : w.graph.context? c with
    | none => exact hkeep
    | some data =>
      dsimp only
      cases howner : data.owner with
      | none =>
        dsimp only
        rw [changeContext_of_some hc]
        refine hclear data hc fun d hd => ?_
        rw [howner] at hd
        cases hd
      | some d =>
        dsimp only
        rw [graph_bind]
        by_cases hd : w.graph.hasDeclaration d = true
        · rw [if_pos hd]
          exact after_setInternal hkeep (hlink d none)
        · rw [if_neg hd, changeContext_of_some hc]
          refine hclear data hc fun e he => ?_
          rw [howner] at he
          cases he
          exact Option.not_isSome_iff_eq_none.mp hd

theorem addImport_apply (c target : ContextId) (position : Option Position) (w : Workspace) :
    addImport c target position w =
      match w.graph.context? c with
      | none => .error (.staleContext c) w
      | some data =>
        match w.graph.context? target with
        | none => .error (.staleContext target) w
        | some _ =>
          if c = target then .ok false (w.warn .selfImport)
          else if data.importsDirectly target then
            .ok false (w.setImportPosition c target position)
          else
            .ok true (((w.linkImport c target position).warnUnlessTop data.isTop target).forgetIf
              data.isTop c) := by
  unfold addImport
  rw [needContext_bind]
  cases hc : w.graph.context? c with
  | none => rfl
  | some data =>
    simp only [needContext_bind]
    cases ht : w.graph.context? target with
    | none => rfl
    | some other =>
      by_cases he : c = target
      · simp only [he, if_true]
        rfl
      · simp only [if_neg he, needContext_bind, hc]
        by_cases hi : data.importsDirectly target = true
        · simp only [if_pos hi]
          rfl
        · simp only [if_neg hi]
          let noted (data : Context) : Context :=
            { data with imports := data.imports ++ [⟨target, position⟩] }
          have hnodes : SameNodes w.graph (w.graph.modifyContext c noted) :=
            View.Same.modifyContext _ c fun _ => rfl
          obtain ⟨late, hlate⟩ := hnodes.exists_context ht
          refine (bind_of_ok (w := w.onGraph (·.modifyContext c noted))
            (changeContext_of_some hlate)).trans ?_
          cases data.isTop with
          | false => rfl
          | true =>
            show (if ((w.linkImport c target position).graph.top? target).isNone = true then
                (do warn .nonTopImported; update (·.forgetImportsOf c); return true : Edit Bool)
              else (do update (·.forgetImportsOf c); return true))
                (w.linkImport c target position) = _
            simp only [Workspace.forgetIf, Workspace.warnUnlessTop, if_true, Bool.true_and]
            cases ((w.linkImport c target position).graph.top? target).isNone <;> rfl

theorem after_addImport {P : Workspace → Prop} {c target : ContextId} {position : Option Position}
    {w : Workspace} (hkeep : P w) (hself : P (w.warn .selfImport))
    (hposition : ∀ data, w.graph.context? c = some data → P (w.setImportPosition c target position))
    (hlink : ∀ data other, w.graph.context? c = some data → w.graph.context? target = some other →
      c ≠ target → data.importsDirectly target = false →
      P (((w.linkImport c target position).warnUnlessTop data.isTop target).forgetIf data.isTop c)) :
    P ((addImport c target position).after w) := by
  unfold after
  rw [addImport_apply]
  cases hc : w.graph.context? c with
  | none => exact hkeep
  | some data =>
    cases ht : w.graph.context? target with
    | none => exact hkeep
    | some other =>
      by_cases he : c = target
      · simp only [if_pos he]
        exact hself
      · by_cases hi : data.importsDirectly target = true
        · simp only [if_neg he, if_pos hi]
          exact hposition data hc
        · simp only [if_neg he, if_neg hi]
          exact hlink data other hc ht he (Bool.eq_false_iff.mpr hi)

theorem removeImport_apply (c target : ContextId) (w : Workspace) :
    removeImport c target w =
      match w.graph.context? c with
      | none => .error (.staleContext c) w
      | some data =>
        if data.importsDirectly target then
          .ok true ((w.unlinkImport c target).forgetIf data.isTop c)
        else .ok false w := by
  unfold removeImport
  rw [needContext_bind]
  cases w.graph.context? c with
  | none => rfl
  | some data =>
    by_cases hi : data.importsDirectly target = true
    · cases ht : data.isTop <;> simp only [hi, ht] <;> rfl
    · simp only [hi, Bool.not_false, if_true]
      rfl

theorem after_removeImport {P : Workspace → Prop} {c target : ContextId} {w : Workspace}
    (hkeep : (∀ data, w.graph.context? c = some data → data.importsDirectly target = false) → P w)
    (hunlink : ∀ data, w.graph.context? c = some data → data.importsDirectly target = true →
      P ((w.unlinkImport c target).forgetIf data.isTop c)) :
    P ((removeImport c target).after w) := by
  unfold after
  rw [removeImport_apply]
  cases hc : w.graph.context? c with
  | none => exact hkeep fun data hd => by rw [hc] at hd; cases hd
  | some data =>
    by_cases hi : data.importsDirectly target = true
    · simp only [if_pos hi]
      exact hunlink data hc hi
    · simp only [if_neg hi]
      refine hkeep fun data' hd => ?_
      cases hc.symm.trans hd
      exact Bool.eq_false_iff.mpr hi

/-- The imports of other contexts taken from a context that is closed. -/
def dropImporters (c : ContextId) (importers : List ContextId) : Edit Unit :=
  forEach (fun i => do
    if (← graph).hasContext i then
      let _ ← removeImport i c) importers

theorem closeContext_apply (c : ContextId) (w : Workspace) :
    closeContext c w =
      match w.graph.context? c with
      | none => .error (.staleContext c) w
      | some data =>
        (dropImporters c data.importers >>= fun _ => clearImports c >>= fun _ => pure ())
          (w.sever c data) := by
  unfold closeContext
  rw [needContext_bind]
  cases hc : w.graph.context? c with
  | none => rfl
  | some data =>
    -- the context is there, with its importers, after its own links were cut
    let cut (data : Context) : Context := { data with
      file := data.file.map ({ · with deleting := true })
      owner := none
      key := none
      registered := false }
    have hcut : (w.sever c data).graph.contexts = w.graph.contexts.modify c cut := by
      unfold Workspace.sever
      cases data.owner <;> cases data.key <;> rfl
    have hlate : (w.sever c data).graph.context? c = some (cut data) := by
      unfold Graph.context? at hc ⊢
      rw [hcut, Store.get?_modify_self, hc]
      rfl
    have hrest := needContext_bind c (fun data => dropImporters c data.importers >>= fun _ =>
      clearImports c >>= fun _ => pure ()) (w.sever c data)
    rw [hlate] at hrest
    refine Eq.trans ?_ hrest
    simp only [Workspace.sever]
    cases data.owner <;> cases data.key <;> rfl

/-- The own declarations of a context that is freed taken out of the graph. -/
def dropDeclarations (ds : List DeclId) : Edit Unit :=
  forEach (fun d => do
    if (← graph).hasDeclaration d then
      deleteDeclaration d) ds

/-- The end of a teardown: the context is released as it is then. -/
def releaseContext (c : ContextId) : Edit Unit := do
  let data ← needContext c
  update (·.release c data)

theorem freeContext_apply (c : ContextId) (w : Workspace) :
    freeContext c w =
      match w.graph.context? c with
      | none => .error (.staleContext c) w
      | some _ =>
        let w := w.onGraph (·.modifyContext c ({ · with uses := [] }))
        (dropDeclarations (w.graph.localDeclarations c) >>= fun _ => releaseContext c) w := by
  unfold freeContext deleteUses
  rw [bind_apply, needContext_bind]
  cases w.graph.context? c with
  | none => rfl
  | some _ =>
    refine congrArg (fun f => (dropDeclarations _ >>= f) _) (funext fun _ => funext fun w' => ?_)
    unfold releaseContext
    rw [needContext_bind, needContext_bind]
    cases w'.graph.context? c with
    | none => rfl
    | some data =>
      dsimp only [Workspace.release, update]
      cases data.parent <;> cases data.anonymous <;> rfl

/-! ## 6. Edits made of others -/

section Follows

variable {R : Workspace → Workspace → Prop} [hR : IsPreorder Workspace R]

include hR

theorem follows_dropImporters {c : ContextId} (h : ∀ i, Follows R (removeImport i c))
    (importers : List ContextId) : Follows R (dropImporters c importers) := by
  refine follows_forEach (fun i => follows_graph.bind fun g => ?_) importers
  split
  · exact (h i).bind fun _ => follows_pure ()
  · exact follows_pure ()

/-- What all parts of the first half of a teardown respect, the whole of it does. -/
theorem follows_closeContext
    (hsever : ∀ w c data, w.graph.context? c = some data → R w (w.sever c data))
    (himport : ∀ c target, Follows R (removeImport c target))
    (himports : ∀ c, Follows R (clearImports c)) (c : ContextId) : Follows R (closeContext c) := by
  intro w
  unfold after
  rw [closeContext_apply]
  cases hc : w.graph.context? c with
  | none => exact hR.refl w
  | some data =>
    have hrest := (follows_dropImporters (himport · c) data.importers).bind fun _ =>
      (himports c).bind fun _ => follows_pure ()
    exact hR.trans _ _ _ (hsever w c data hc) (hrest _)

/-- What all parts of a teardown respect, the deletion of a context does. -/
theorem follows_deleteContext
    (hsever : ∀ w c data, w.graph.context? c = some data → R w (w.sever c data))
    (himport : ∀ c target, Follows R (removeImport c target))
    (himports : ∀ c, Follows R (clearImports c))
    (huses : ∀ w c, R w (w.onGraph (·.modifyContext c ({ · with uses := [] }))))
    (hdeclaration : ∀ d, Follows R (deleteDeclaration d))
    (hrelease : ∀ w c data, w.graph.context? c = some data → R w (w.release c data))
    (c : ContextId) : Follows R (deleteContext c) := by
  have hdrop : ∀ ds, Follows R (dropDeclarations ds) := by
    refine fun ds => follows_forEach (fun d => follows_graph.bind fun g => ?_) ds
    split
    · exact hdeclaration d
    · exact follows_pure ()
  have hfree : ∀ c, Follows R (freeContext c) := by
    intro c w
    unfold after
    rw [freeContext_apply]
    cases w.graph.context? c with
    | none => exact hR.refl w
    | some _ =>
      have hlast : Follows R (releaseContext c) := fun w => related_needContext (hrelease w c)
      exact hR.trans _ _ _ (huses w c) (((hdrop _).bind fun _ => hlast) _)
  have hwithin : ∀ n c, Follows R (deleteContextWithin n c) := by
    intro n
    induction n with
    | zero => exact fun _ => follows_throw _
    | succ n ih =>
      refine fun c => (follows_closeContext hsever himport himports c).bind fun _ =>
        (follows_needContext c).bind fun data =>
          Follows.bind (follows_forEach (fun child => follows_graph.bind fun g => ?_) _) fun _ =>
            hfree c
      split
      · exact ih child
      · exact follows_pure ()
  exact follows_graph.bind fun _ => hwithin _ c

/-- What the deletion of a declaration and of a context respects, cleaning does. -/
theorem follows_clean (hdeclaration : ∀ d, Follows R (deleteDeclaration d))
    (hcontext : ∀ c, Follows R (deleteContext c)) (c : ContextId) (keep : List Node) :
    Follows R (clean c keep) := by
  refine follows_graph.bind fun g => Follows.bind (follows_forEach (fun d => ?_) _) fun _ =>
    (follows_needContext c).bind fun data => follows_forEach (fun child => ?_) _
  · split
    · exact hdeclaration d
    · exact follows_pure ()
  · split
    · exact hcontext child
    · exact follows_pure ()

end Follows

end Edit

end ScopeGraph
