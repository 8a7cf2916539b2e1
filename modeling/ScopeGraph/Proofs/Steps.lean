/-
  File:      ScopeGraph/Proofs/Steps.lean
  Subject:   Every change of a workspace as a chain of small steps, and what each
             step keeps of owners and keys.

  A declaration opens at most one context, and both ends of this link know of it.
  The path under which the symbol table holds a declaration ends in its name, also
  where the path itself is out of date. Neither depends on the tree, on imports or
  on indices, so all that an edit does there is one kind of step (`Step.contexts`).

  * `Graph.Owned`: a context has a declaration as its owner exactly if the
    declaration opens the context;
  * `Graph.Labelled`: the key of every declaration ends in its name;
  * `Change.steps`: a change is a chain of steps;
  * `Workspace.stepped_run`: so both hold after every sequence of calls;
  * `Workspace.owner_iff_internal`: what this means for a context and a declaration.
-/
import ScopeGraph.Proofs.Tending

namespace ScopeGraph

/-! ## 1. Owners and labels -/

/-- The key of a declaration ends in its name. -/
def Declaration.Labelled (data : Declaration) : Prop :=
  ∀ path, data.key = some path → path.getLast? = some data.name

namespace Graph

/-- The context that a declaration opens. -/
def internalOf? (g : Graph) (d : DeclId) : Option ContextId :=
  (g.declaration? d).bind (·.internal)

/-- Owners and what they open are the same links. Each end is there, since the link
    is found at it. -/
def Owned (g : Graph) : Prop := ∀ c d, g.ownerOf? c = some d ↔ g.internalOf? d = some c

/-- Every declaration is labelled. -/
def Labelled (g : Graph) : Prop := ∀ d data, g.declaration? d = some data → data.Labelled

variable {g g' : Graph}

theorem ownerOf?_congr (h : ∀ x, (g'.context? x).map (·.owner) = (g.context? x).map (·.owner)) :
    g'.ownerOf? = g.ownerOf? := by
  funext x
  have hx := h x
  unfold ownerOf?
  cases hg' : g'.context? x <;> cases hg : g.context? x <;> rw [hg, hg'] at hx <;> simp_all

theorem ownerOf?_clearOwner (g : Graph) (c : ContextId) (d : DeclId) (x : ContextId) :
    (g.clearOwner c d).ownerOf? x =
      if x = c ∧ g.ownerOf? x = some d then none else g.ownerOf? x := by
  unfold ownerOf? clearOwner
  rw [context?_modifyContext]
  by_cases hx : x = c
  · rw [if_pos hx]
    cases g.context? x with
    | none => simp
    | some data => by_cases hd : data.owner = some d <;> simp [hx, hd]
  · rw [if_neg hx, if_neg fun h => hx h.1]

theorem internalOf?_clearInternal (g : Graph) (d : DeclId) (c : ContextId) (x : DeclId) :
    (g.clearInternal d c).internalOf? x =
      if x = d ∧ g.internalOf? x = some c then none else g.internalOf? x := by
  unfold internalOf? clearInternal
  rw [declaration?_modifyDeclaration]
  by_cases hx : x = d
  · rw [if_pos hx]
    cases g.declaration? x with
    | none => simp
    | some data => by_cases hc : data.internal = some c <;> simp [hx, hc]
  · rw [if_neg hx, if_neg fun h => hx h.1]

/-! ## 2. Steps -/

/-- **One step of an edit**, as owners and declarations see it. -/
inductive Step (g : Graph) : Graph → Prop where
  /-- Contexts, imports or the table are others, but no owner is. -/
  | contexts {g' : Graph} : g'.ownerOf? = g.ownerOf? → g'.declaration? = g.declaration? → Step g g'
  /-- A declaration is another one, but opens what it did. -/
  | declaration {g' : Graph} {d : DeclId} {f : Declaration → Declaration} :
      g'.ownerOf? = g.ownerOf? →
      (∀ x, g'.declaration? x = if x = d then (g.declaration? x).map f else g.declaration? x) →
      (∀ data, (f data).internal = data.internal) →
      (∀ data, g.declaration? d = some data → data.Labelled → (f data).Labelled) → Step g g'
  /-- There is a declaration more. -/
  | make {g' : Graph} {n : DeclId} {made : Declaration} : g'.ownerOf? = g.ownerOf? →
      g.declaration? n = none →
      (∀ x, g'.declaration? x = if x = n then some made else g.declaration? x) →
      made.internal = none → made.key = none → Step g g'
  /-- A declaration opens another context, or none. -/
  | link {d : DeclId} {data : Declaration} {internal : Option ContextId} :
      g.declaration? d = some data → (∀ c, internal = some c → (g.context? c).isSome) →
      Step g (g.linkInternal d data.internal internal)
  /-- A context loses its owner. -/
  | disown {g' : Graph} {c : ContextId} :
      (∀ x, g'.ownerOf? x = if x = c then none else g.ownerOf? x) →
      (∀ x, g'.declaration? x = if g.ownerOf? c = some x
        then (g.clearInternal x c).declaration? x else g.declaration? x) → Step g g'
  /-- There is a declaration less. -/
  | discard {g' : Graph} {d : DeclId} :
      (∀ x, g'.ownerOf? x = if g.internalOf? d = some x ∧ g.ownerOf? x = some d
        then none else g.ownerOf? x) →
      (∀ x, g'.declaration? x = if x = d then none else g.declaration? x) → Step g g'

theorem internalOf?_congr (h : g'.declaration? = g.declaration?) :
    g'.internalOf? = g.internalOf? := by
  unfold internalOf?
  rw [h]

theorem ownerOf?_modifyDeclaration (g : Graph) (d : DeclId) (f : Declaration → Declaration) :
    (g.modifyDeclaration d f).ownerOf? = g.ownerOf? := rfl

theorem internalOf?_modifyContext (g : Graph) (c : ContextId) (f : Context → Context) :
    (g.modifyContext c f).internalOf? = g.internalOf? := rfl

theorem linkInternal_none (g : Graph) (d : DeclId) (previous : Option ContextId) :
    g.linkInternal d previous none =
      (g.letGo d previous).modifyDeclaration d ({ · with internal := none }) := rfl

theorem linkInternal_some (g : Graph) (d : DeclId) (previous : Option ContextId) (c : ContextId) :
    g.linkInternal d previous (some c) =
      (((g.letGo d previous).displace d c).modifyContext c ({ · with owner := some d })).modifyDeclaration
        d ({ · with internal := some c }) := rfl

theorem contexts_displace (g : Graph) (d : DeclId) (c : ContextId) :
    (g.displace d c).contexts = g.contexts := by
  unfold displace
  split
  · split <;> rfl
  · rfl

theorem isSome_displace (g : Graph) (d : DeclId) (c : ContextId) (x : DeclId) :
    ((g.displace d c).declaration? x).isSome = (g.declaration? x).isSome := by
  unfold displace
  split
  · split
    · rfl
    · unfold clearInternal
      rw [declaration?_modifyDeclaration]
      split
      · exact Option.isSome_map
      · rfl
  · rfl

theorem internalOf?_displace (g : Graph) (d : DeclId) (c : ContextId) (e : DeclId) (he : e ≠ d) :
    (g.displace d c).internalOf? e =
      if g.ownerOf? c = some e ∧ g.internalOf? e = some c then none else g.internalOf? e := by
  unfold displace
  cases hc : g.ownerOf? c with
  | none => simp
  | some e' =>
    dsimp only
    by_cases hd : e' = d
    · rw [if_pos hd, if_neg]
      rintro ⟨hsame, _⟩
      exact he ((Option.some.inj hsame).symm.trans hd)
    · rw [if_neg hd, internalOf?_clearInternal]
      simp only [Option.some.injEq, eq_comm]

theorem isSome_letGo (g : Graph) (d : DeclId) (previous : Option ContextId) (x : ContextId) :
    ((g.letGo d previous).context? x).isSome = (g.context? x).isSome := by
  cases previous with
  | none => rfl
  | some p =>
    unfold letGo clearOwner
    rw [Option.elim_some, context?_modifyContext]
    split
    · exact Option.isSome_map
    · rfl

theorem internalOf?_letGo (g : Graph) (d : DeclId) (previous : Option ContextId) :
    (g.letGo d previous).internalOf? = g.internalOf? := by
  cases previous <;> rfl

theorem ownerOf?_setOwner {c : ContextId} (hlive : (g.context? c).isSome) (d : DeclId)
    (x : ContextId) : (g.modifyContext c ({ · with owner := some d })).ownerOf? x =
      if x = c then some d else g.ownerOf? x := by
  obtain ⟨data, hdata⟩ := Option.isSome_iff_exists.mp hlive
  unfold ownerOf?
  rw [context?_modifyContext]
  by_cases hx : x = c
  · rw [if_pos hx, if_pos hx, hx, hdata]
    rfl
  · rw [if_neg hx, if_neg hx]

theorem internalOf?_setInternal {d : DeclId} (hlive : (g.declaration? d).isSome)
    (internal : Option ContextId) (e : DeclId) :
    (g.modifyDeclaration d ({ · with internal := internal })).internalOf? e =
      if e = d then internal else g.internalOf? e := by
  obtain ⟨data, hdata⟩ := Option.isSome_iff_exists.mp hlive
  unfold internalOf?
  rw [declaration?_modifyDeclaration]
  by_cases he : e = d
  · rw [if_pos he, if_pos he, he, hdata]
    rfl
  · rw [if_neg he, if_neg he]

section Link

variable (h : g.Owned) {d : DeclId} {data : Declaration} (hd : g.declaration? d = some data)

include h hd

/-- The old link of a declaration is the only one that names it as an owner. -/
theorem Owned.owner_iff (x : ContextId) : g.ownerOf? x = some d ↔ data.internal = some x := by
  rw [h x d]
  unfold internalOf?
  rw [hd]
  rfl

theorem Owned.ownerOf?_letGo (x : ContextId) : (g.letGo d data.internal).ownerOf? x =
    if g.ownerOf? x = some d then none else g.ownerOf? x := by
  have hiff := h.owner_iff hd x
  unfold letGo
  cases hp : data.internal with
  | none =>
    rw [Option.elim_none, if_neg]
    rw [hiff, hp]
    exact nofun
  | some p =>
    rw [Option.elim_some, ownerOf?_clearOwner]
    have hsame : (x = p ∧ g.ownerOf? x = some d) ↔ g.ownerOf? x = some d := by
      rw [hiff, hp]
      simp [eq_comm]
    simp only [hsame]

theorem Owned.ownerOf?_linkInternal {internal : Option ContextId}
    (hlive : ∀ c, internal = some c → (g.context? c).isSome) (x : ContextId) :
    (g.linkInternal d data.internal internal).ownerOf? x = if internal = some x then some d
      else if g.ownerOf? x = some d then none else g.ownerOf? x := by
  rw [← h.ownerOf?_letGo hd]
  cases internal with
  | none =>
    rw [linkInternal_none, ownerOf?_modifyDeclaration]
    simp
  | some c =>
    let g₁ := (g.letGo d data.internal).displace d c
    have hcontexts : g₁.context? = (g.letGo d data.internal).context? := by
      unfold context?
      rw [contexts_displace]
    have hc : (g₁.context? c).isSome := by
      rw [hcontexts, isSome_letGo]
      exact hlive c rfl
    rw [linkInternal_some, ownerOf?_modifyDeclaration, ownerOf?_setOwner hc]
    unfold ownerOf?
    rw [hcontexts]
    simp only [Option.some.injEq, eq_comm]

theorem Owned.internalOf?_linkInternal (internal : Option ContextId) (e : DeclId) :
    (g.linkInternal d data.internal internal).internalOf? e = if e = d then internal
      else if internal.bind g.ownerOf? = some e then none else g.internalOf? e := by
  have hlive : ((g.letGo d data.internal).declaration? d).isSome := by
    have hsame : (g.letGo d data.internal).declaration? d = g.declaration? d := by
      cases data.internal <;> rfl
    rw [hsame, hd]
    rfl
  cases internal with
  | none =>
    rw [linkInternal_none, internalOf?_setInternal hlive, internalOf?_letGo]
    simp
  | some c =>
    rw [linkInternal_some, internalOf?_setInternal (by
      show (((g.letGo d data.internal).displace d c).declaration? d).isSome
      rw [isSome_displace]
      exact hlive), internalOf?_modifyContext]
    by_cases he : e = d
    · rw [if_pos he, if_pos he]
    · rw [if_neg he, if_neg he, internalOf?_displace _ _ _ _ he, h.ownerOf?_letGo hd,
        internalOf?_letGo, Option.bind_some]
      -- an owner that is left is not the declaration itself, and opens the context
      by_cases hce : g.ownerOf? c = some e
      · have hne : g.ownerOf? c ≠ some d := fun hcd => he (Option.some.inj (hce.symm.trans hcd))
        rw [if_neg hne, if_pos ⟨hce, (h c e).mp hce⟩, if_pos hce]
      · rw [if_neg hce, if_neg]
        intro hleft
        exact hce ((h c e).mpr hleft.2)

/-- A new link takes the place of the old ones of both ends. -/
theorem Owned.linkInternal {internal : Option ContextId}
    (hlive : ∀ c, internal = some c → (g.context? c).isSome) :
    (g.linkInternal d data.internal internal).Owned := by
  intro x e
  rw [h.ownerOf?_linkInternal hd hlive, h.internalOf?_linkInternal hd]
  have hxe := h x e
  by_cases hx : internal = some x
  · subst hx
    rw [if_pos rfl, Option.bind_some]
    by_cases he : e = d
    · simp [he]
    · rw [if_neg he]
      constructor
      · intro hde
        exact absurd (Option.some.inj hde).symm he
      · intro hcleared
        split at hcleared
        · cases hcleared
        · next hnot => exact absurd (hxe.mpr hcleared) hnot
  · rw [if_neg hx]
    by_cases he : e = d
    · subst he
      rw [if_pos rfl]
      constructor
      · intro howner
        split at howner
        · cases howner
        · next hnot => exact absurd howner hnot
      · intro hinternal
        exact absurd hinternal hx
    · rw [if_neg he]
      constructor
      · intro howner
        split at howner
        · cases howner
        · have hinternal := hxe.mp howner
          rw [if_neg, hinternal]
          intro hdisplaced
          obtain ⟨c, hc, hce⟩ := Option.bind_eq_some_iff.mp hdisplaced
          have hsame := hinternal.symm.trans ((h c e).mp hce)
          exact hx (hc.trans hsame.symm)
      · intro hinternal
        split at hinternal
        · cases hinternal
        · have howner := hxe.mpr hinternal
          rw [if_neg, howner]
          intro hd'
          exact he (Option.some.inj (howner.symm.trans hd'))

end Link

theorem Step.owned (h : Step g g') (hg : g.Owned) : g'.Owned := by
  cases h with
  | contexts howner hdecl =>
    unfold Owned
    rw [howner, internalOf?_congr hdecl]
    exact hg
  | @declaration _ d f howner hdecl hinternal _ =>
    have hsame : g'.internalOf? = g.internalOf? := by
      funext x
      unfold internalOf?
      rw [hdecl x]
      split
      · cases g.declaration? x with
        | none => rfl
        | some data => exact hinternal data
      · rfl
    unfold Owned
    rw [howner, hsame]
    exact hg
  | @make _ n made howner hnew hdecl hinternal _ =>
    have hsame : g'.internalOf? = g.internalOf? := by
      funext x
      unfold internalOf?
      rw [hdecl x]
      split
      · next hx =>
        rw [hx, hnew]
        exact hinternal
      · rfl
    unfold Owned
    rw [howner, hsame]
    exact hg
  | link hd hlive => exact hg.linkInternal hd hlive
  | @disown _ c howner hdecl =>
    intro x e
    have hinternal : g'.internalOf? e =
        if g.ownerOf? c = some e ∧ g.internalOf? e = some c then none else g.internalOf? e := by
      unfold internalOf?
      rw [hdecl e]
      by_cases he : g.ownerOf? c = some e
      · rw [if_pos he]
        have hclear := internalOf?_clearInternal g e c e
        unfold internalOf? at hclear
        rw [hclear]
        simp [he]
      · rw [if_neg he, if_neg fun h => he h.1]
    rw [howner x, hinternal]
    have hx := hg x e
    by_cases hxc : x = c
    · subst hxc
      rw [if_pos rfl]
      constructor
      · intro h
        cases h
      · intro h
        split at h
        · cases h
        · next hnot => exact absurd ⟨hx.mpr h, h⟩ hnot
    · rw [if_neg hxc, hx]
      constructor
      · intro h
        rw [if_neg, h]
        rintro ⟨_, hc⟩
        exact hxc (Option.some.inj (h.symm.trans hc))
      · intro h
        split at h
        · cases h
        · exact h
  | @discard _ d howner hdecl =>
    intro x e
    have hinternal : g'.internalOf? e = if e = d then none else g.internalOf? e := by
      unfold internalOf?
      rw [hdecl e]
      split <;> rfl
    rw [howner x, hinternal]
    have hx := hg x e
    by_cases hed : e = d
    · subst hed
      rw [if_pos rfl]
      constructor
      · intro h
        split at h
        · cases h
        · next hnot => exact absurd ⟨hx.mp h, h⟩ hnot
      · intro h
        cases h
    · rw [if_neg hed, ← hx]
      constructor
      · intro h
        split at h
        · cases h
        · exact h
      · intro h
        rw [if_neg, h]
        rintro ⟨_, hd⟩
        exact hed (Option.some.inj (h.symm.trans hd))

theorem declaration?_linkInternal (g : Graph) (d : DeclId) (previous internal : Option ContextId)
    (x : DeclId) {data' : Declaration}
    (hx : (g.linkInternal d previous internal).declaration? x = some data') :
    ∃ data, g.declaration? x = some data ∧ data.key = data'.key ∧ data.name = data'.name := by
  have hbeside : Beside g (g.linkInternal d previous internal) :=
    View.Same.linkInternal View.overlooksOwners_core g d previous internal
  have hview := hbeside.map_declaration? (u := fun data => (data.key, data.name)) (fun _ => rfl) x
  obtain ⟨data, hdata, he⟩ := exists_of_map_eq hview hx
  exact ⟨data, hdata, Prod.mk.inj he⟩

theorem Step.labelled (h : Step g g') (hg : g.Labelled) : g'.Labelled := by
  intro x data' hx
  cases h with
  | contexts _ hdecl =>
    rw [hdecl] at hx
    exact hg x data' hx
  | @declaration _ d f _ hdecl _ hf =>
    rw [hdecl x] at hx
    split at hx
    · next hxd =>
      obtain ⟨data, hdata, rfl⟩ := Option.map_eq_some_iff.mp hx
      rw [hxd] at hdata
      exact hf data hdata (hg d data hdata)
    · exact hg x data' hx
  | make _ _ hdecl _ hkey =>
    rw [hdecl x] at hx
    split at hx
    · cases hx
      intro path hpath
      rw [hkey] at hpath
      cases hpath
    · exact hg x data' hx
  | link _ _ =>
    obtain ⟨data, hdata, hkey, hname⟩ := declaration?_linkInternal _ _ _ _ x hx
    intro path hpath
    rw [← hname]
    exact hg x data hdata path (hkey.trans hpath)
  | @disown _ c _ hdecl =>
    rw [hdecl x] at hx
    split at hx
    · unfold clearInternal at hx
      rw [declaration?_modifyDeclaration, if_pos rfl] at hx
      obtain ⟨data, hdata, rfl⟩ := Option.map_eq_some_iff.mp hx
      have hlabel := hg x data hdata
      split
      · exact hlabel
      · exact hlabel
    · exact hg x data' hx
  | discard _ hdecl =>
    rw [hdecl x] at hx
    split at hx
    · cases hx
    · exact hg x data' hx

end Graph

/-- **What a step keeps, a chain of steps keeps.** -/
theorem Graph.Owned.steps {g g' : Graph} (h : Relation.ReflTransGen Graph.Step g g') (hg : g.Owned) :
    g'.Owned := by
  induction h with
  | refl => exact hg
  | tail _ hstep ih => exact hstep.owned ih

theorem Graph.Labelled.steps {g g' : Graph} (h : Relation.ReflTransGen Graph.Step g g')
    (hg : g.Labelled) : g'.Labelled := by
  induction h with
  | refl => exact hg
  | tail _ hstep ih => exact hstep.labelled ih

/-! ## 3. Workspaces -/

namespace Workspace

open ScopeGraph.Graph

/-- A chain of steps. -/
def Steps (w w' : Workspace) : Prop := Relation.ReflTransGen Step w.graph w'.graph

namespace Steps

variable {w w' : Workspace}

instance : IsPreorder Workspace Steps where
  refl _ := .refl
  trans _ _ _ := .trans

theorem refl (w : Workspace) : Steps w w := Relation.ReflTransGen.refl

theorem trans {w₁ w₂ w₃ : Workspace} (h₁ : Steps w₁ w₂) (h₂ : Steps w₂ w₃) : Steps w₁ w₃ :=
  Relation.ReflTransGen.trans h₁ h₂

/-- Contexts may change in everything but their owners. -/
theorem contexts
    (h : ∀ x, (w'.graph.context? x).map (·.owner) = (w.graph.context? x).map (·.owner))
    (hdecl : w'.graph.declarations = w.graph.declarations) : Steps w w' := by
  refine .single (.contexts (ownerOf?_congr h) ?_)
  unfold declaration?
  rw [hdecl]

theorem modifyContext (w : Workspace) (c : ContextId) {f : Context → Context}
    (hf : ∀ data, (f data).owner = data.owner) : Steps w (w.onGraph (·.modifyContext c f)) :=
  contexts (map_context?_modifyContext _ c hf) rfl

theorem modifyDeclaration (w : Workspace) (d : DeclId) {f : Declaration → Declaration}
    (hf : ∀ data, (f data).internal = data.internal ∧ (f data).key = data.key ∧
      (f data).name = data.name) : Steps w (w.onGraph (·.modifyDeclaration d f)) := by
  refine .single (.declaration (d := d) (f := f) rfl (declaration?_modifyDeclaration _ d · f)
    (fun data => (hf data).1) fun data _ hlabel => ?_)
  obtain ⟨_, hkey, hname⟩ := hf data
  unfold Declaration.Labelled
  rw [hkey, hname]
  exact hlabel

theorem modifyLocals (w : Workspace) (c : ContextId) (f : Graph → Locals → Locals) :
    Steps w (w.onGraph fun g => g.modifyLocals c (f g)) :=
  modifyContext w c (f := fun data => { data with locals := f w.graph data.locals }) fun _ => rfl

theorem attach (w : Workspace) (c : ContextId) (d : DeclId) : Steps w (w.onGraph (·.attach c d)) :=
  contexts (map_context?_attach (fun _ _ _ _ => rfl) c d) (declarations_attach c d)

theorem detach (w : Workspace) (c : ContextId) (d : DeclId) : Steps w (w.onGraph (·.detach c d)) :=
  contexts (map_context?_detach (fun _ _ _ _ => rfl) c d) (declarations_detach c d)

theorem unlinkChild (w : Workspace) (p c : ContextId) : Steps w (w.onGraph (·.unlinkChild p c)) :=
  contexts (map_context?_unlinkChild (fun _ _ _ _ => rfl) p c) (declarations_unlinkChild p c)

theorem linkChild (w : Workspace) (p c : ContextId) : Steps w (w.onGraph (·.linkChild p c)) :=
  contexts (map_context?_linkChild (fun _ _ _ _ => rfl) p c) (declarations_linkChild p c)

theorem changeTable (w : Workspace) (change : TableChange) : Steps w (w.changeTable change) :=
  contexts (fun _ => rfl) rfl

theorem syncContextKey (w : Workspace) (c : ContextId) : Steps w (w.syncContextKey c) := by
  unfold Workspace.syncContextKey
  split
  · dsimp only
    split
    · exact refl w
    · refine trans (modifyContext w c fun _ => ?_) (related_foldl changeTable _ _)
      rfl
  · exact refl w

end Steps

/-- The path of a declaration ends in its name. -/
theorem getLast?_declarationKey? {g : Graph} {d : DeclId} {data : Declaration} {path : Path}
    (hd : g.declaration? d = some data) (hkey : g.declarationKey? d = some path) :
    path.getLast? = some data.name := by
  unfold declarationKey? at hkey
  rw [hd] at hkey
  dsimp only at hkey
  split at hkey
  · cases hkey
    unfold pathOf
    exact List.getLast?_concat
  · cases hkey

theorem declaration?_syncDeclaration (w : Workspace) (d x : DeclId) :
    (w.syncDeclaration d).graph.declaration? x = if x = d
      then (w.graph.declaration? x).map ({ · with key := w.graph.declarationKey? d })
      else w.graph.declaration? x := by
  unfold syncDeclaration
  cases hd : w.graph.declaration? d with
  | none =>
    dsimp only
    split
    · next hx => rw [hx, hd]; rfl
    · rfl
  | some data =>
    dsimp only
    by_cases hkey : data.key = w.graph.declarationKey? d
    · rw [if_pos hkey]
      split
      · next hx => rw [hx, hd, ← hkey]; rfl
      · rfl
    · rw [if_neg hkey, graph_changeTableBy]
      exact declaration?_modifyDeclaration w.graph d x _

theorem contexts_syncDeclaration (w : Workspace) (d : DeclId) :
    (w.syncDeclaration d).graph.contexts = w.graph.contexts := by
  unfold syncDeclaration
  split
  · dsimp only
    split
    · rfl
    · rw [graph_changeTableBy]
      rfl
  · rfl

/-- A declaration that is entered anew gets a label, whatever it had before. -/
theorem steps_relabel {w w₁ : Workspace} {d : DeclId} {f : Declaration → Declaration}
    (hcontexts : w₁.graph.contexts = w.graph.contexts)
    (hdecl : ∀ x, w₁.graph.declaration? x =
      if x = d then (w.graph.declaration? x).map f else w.graph.declaration? x)
    (hf : ∀ data, (f data).internal = data.internal) : Steps w (w₁.syncDeclaration d) := by
  have howner : (w₁.syncDeclaration d).graph.ownerOf? = w.graph.ownerOf? := by
    unfold ownerOf? context?
    rw [contexts_syncDeclaration, hcontexts]
  refine .single (.declaration (d := d)
    (f := fun data => { f data with key := w₁.graph.declarationKey? d }) howner (fun x => ?_) hf
    fun data hd _ path hpath => ?_)
  · rw [declaration?_syncDeclaration, hdecl]
    split
    · cases w.graph.declaration? x <;> rfl
    · rfl
  · have hd₁ : w₁.graph.declaration? d = some (f data) := by
      rw [hdecl, if_pos rfl, hd]
      rfl
    have hlast := getLast?_declarationKey? hd₁ hpath
    exact hlast

namespace Steps

variable {w w' : Workspace}

theorem syncDeclaration (w : Workspace) (d : DeclId) : Steps w (w.syncDeclaration d) :=
  steps_relabel (f := id) rfl (fun x => by simp) fun _ => rfl

theorem syncContext (w : Workspace) (c : ContextId) : Steps w (w.syncContext c) :=
  (syncContextKey w c).trans (related_foldl syncDeclaration _ _)

theorem syncSubtree (w : Workspace) (c : ContextId) : Steps w (w.syncSubtree c) :=
  related_foldl syncContext _ w

theorem markSubtree (w : Workspace) (c : ContextId) (registered : Bool) :
    Steps w (w.markSubtree c registered) := by
  have hmark : ∀ (cs : List ContextId) (g : Graph), Steps { w with graph := g } { w with
      graph := cs.foldl (fun g c => g.modifyContext c fun data =>
        { data with registered := registered && !data.anonymous }) g } := by
    intro cs
    induction cs with
    | nil => exact fun g => refl _
    | cons c rest ih =>
      intro g
      refine trans (modifyContext { w with graph := g } c fun _ => ?_) (ih _)
      rfl
  exact hmark _ w.graph

theorem registerSubtree (w : Workspace) (c : ContextId) (registered : Bool) :
    Steps w (w.registerSubtree c registered) :=
  (markSubtree w c registered).trans (syncSubtree _ c)

theorem moveDeclaration (w : Workspace) (c : ContextId) (d : DeclId) (previous : Option ContextId) :
    Steps w (w.moveDeclaration c d previous) := by
  have hcut : Steps w (whenSome previous (fun p w => w.onGraph (·.detach p d)) w) :=
    related_whenSome fun p => detach w p d
  refine trans hcut (trans (attach _ c d) (trans (modifyDeclaration _ d fun _ => ?_)
    (syncDeclaration _ d)))
  exact ⟨rfl, rfl, rfl⟩

theorem dropDeclaration (w : Workspace) (c : ContextId) (d : DeclId) :
    Steps w (w.dropDeclaration c d) := by
  unfold Workspace.dropDeclaration
  refine trans (detach w c d) (trans (modifyDeclaration _ d fun _ => ?_) (syncDeclaration _ d))
  exact ⟨rfl, rfl, rfl⟩

/-- Under its new name a declaration is labelled only when it is entered anew. -/
theorem renameDeclaration (w : Workspace) (d : DeclId) (data : Declaration) (name : Ident) :
    Steps w (w.renameDeclaration d data name) := by
  unfold Workspace.renameDeclaration
  refine trans (related_whenSome fun c => ?_) (steps_relabel (f := ({ · with name := name })) rfl
    (declaration?_modifyDeclaration _ d · _) fun _ => rfl)
  refine contexts (fun x => ?_) ?_
  · refine (map_context?_modifyAll (fun _ => ?_) _ x).trans (map_context?_modifyAll (fun _ => ?_) _ x)
    · rfl
    · rfl
  · exact (declarations_modifyAll _ _).trans (declarations_modifyAll _ _)

theorem placeDeclaration (w : Workspace) (d : DeclId) (data : Declaration) (range : Span) :
    Steps w (w.placeDeclaration d data range) := by
  have hfirst : Steps w (w.onGraph (·.modifyDeclaration d ({ · with range := range }))) :=
    modifyDeclaration w d fun _ => ⟨rfl, rfl, rfl⟩
  unfold Workspace.placeDeclaration
  dsimp only
  split
  · exact hfirst.trans (related_whenSome fun c => modifyLocals _ c _)
  · exact hfirst

theorem adopt (w : Workspace) (p c : ContextId) (parent child : Context) :
    Steps w (w.adopt p c parent child) := by
  have hwarn : Steps w (if parent.range.encloses child.range then w
      else w.warn .childOutsideParent) := by
    split
    · exact refl w
    · exact contexts (fun _ => rfl) rfl
  have hcut : ∀ w, Steps w (whenSome child.parent (fun q w => w.onGraph (·.unlinkChild q c)) w) :=
    fun w => related_whenSome fun q => unlinkChild w q c
  exact (hwarn.trans (hcut _)).trans ((linkChild _ p c).trans (registerSubtree _ c _))

theorem abandon (w : Workspace) (p c : ContextId) : Steps w (w.abandon p c) := by
  unfold Workspace.abandon
  refine trans (unlinkChild w p c) ?_
  dsimp only
  split
  · exact registerSubtree _ c false
  · exact refl _

end Steps

end Workspace

/-! ## 4. Nodes that go -/

namespace Workspace

open ScopeGraph.Graph

variable {w w' : Workspace} {c : ContextId} {d : DeclId}

theorem Steps.discard {data : Declaration} (hd : w.graph.declaration? d = some data) :
    Steps w (w.discard d data) := by
  refine .single (.discard (d := d) (fun x => ?_) (declaration?_discard w d data))
  have hinternal : w.graph.internalOf? d = data.internal := by
    unfold internalOf?
    rw [hd]
    rfl
  have hwithdraw : (w.graph.withdraw d data.context).ownerOf? = w.graph.ownerOf? :=
    ownerOf?_congr (map_context?_withdraw (fun _ _ _ _ => rfl) d data.context)
  rw [hinternal, ← hwithdraw]
  unfold ownerOf?
  rw [context?_discard]
  cases (w.graph.withdraw d data.context).context? x <;> simp [Context.bereft]

theorem Steps.sever {data : Context} (hc : w.graph.context? c = some data) :
    Steps w (w.sever c data) := by
  have howner : w.graph.ownerOf? c = data.owner := by
    unfold ownerOf?
    rw [hc]
    rfl
  refine .single (.disown (c := c) (fun x => ?_) fun x => ?_)
  · by_cases hx : x = c
    · rw [if_pos hx, hx]
      exact ownerOf?_sever w c data
    · rw [if_neg hx]
      unfold ownerOf?
      rw [context?_sever, if_neg hx]
  · rw [howner]
    unfold Workspace.sever
    cases data.owner with
    | none =>
      rw [if_neg nofun]
      cases data.key <;> rfl
    | some e =>
      have hclear : ∀ f, (whenSome data.key (fun key w => w.changeTable (.removeContext key c))
          ((w.onGraph (·.modifyContext c f)).onGraph (·.clearInternal e c))).graph.declaration? x =
          (w.graph.clearInternal e c).declaration? x := by
        intro f
        cases data.key <;> rfl
      refine (hclear _).trans ?_
      by_cases hx : x = e
      · rw [hx, if_pos rfl]
      · rw [if_neg fun h => hx (Option.some.inj h).symm]
        unfold clearInternal
        rw [declaration?_modifyDeclaration, if_neg hx]

/-- A context without an owner may go. -/
theorem Steps.release {data : Context} (hbare : w.Bare c data) : Steps w (w.release c data) := by
  have hloosen : (w.graph.loosen c data).ownerOf? = w.graph.ownerOf? ∧
      (w.graph.loosen c data).declarations = w.graph.declarations := by
    unfold loosen
    cases data.parent with
    | none => exact ⟨rfl, rfl⟩
    | some p =>
      dsimp only [Option.elim]
      split
      · exact ⟨rfl, rfl⟩
      · exact ⟨ownerOf?_congr (map_context?_unlinkChild (fun _ _ _ _ => rfl) p c),
          declarations_unlinkChild p c⟩
  refine .single (.contexts (funext fun x => ?_) ?_)
  · rw [graph_release, ← hloosen.1]
    unfold ownerOf?
    rw [context?_eraseContext]
    split
    · next hx =>
      have hnone := congrFun hloosen.1 c
      unfold ownerOf? at hnone
      rw [hbare.context] at hnone
      rw [hx, hnone]
      exact hbare.unowned.symm
    · rfl
  · unfold declaration?
    rw [graph_release, ← hloosen.2]

theorem Steps.unimport (w : Workspace) (a b : ContextId) (isTop : Bool) :
    Steps w ((w.unlinkImport a b).forgetIf isTop a) := by
  have hunlink : Steps w (w.unlinkImport a b) := by
    refine trans (modifyContext w a fun _ => ?_) (modifyContext _ b fun _ => ?_) <;> rfl
  refine hunlink.trans (contexts (fun x => ?_) ?_) <;> rw [graph_forgetIf]

theorem TeardownStep.steps {S : ContextId → Prop} (h : TeardownStep S w w') : Steps w w' := by
  cases h with
  | unimport => exact .unimport w _ _ _
  | clearUses => exact .modifyContext w _ fun _ => rfl
  | sever _ hc => exact .sever hc
  | discard _ hd _ => exact .discard hd
  | release _ hbare _ => exact .release hbare

theorem TeardownSteps.steps {S : ContextId → Prop} (h : TeardownSteps S w w') : Steps w w' := by
  induction h with
  | refl => exact .refl w
  | tail _ hstep ih => exact ih.trans hstep.steps

/-- Deletions step only where the graph is consistent, and it is so afterwards. -/
def ConsistentSteps (w w' : Workspace) : Prop :=
  w.graph.Consistent → w'.graph.Consistent ∧ Steps w w'

instance : IsPreorder Workspace ConsistentSteps where
  refl w hw := ⟨hw, .refl w⟩
  trans _ _ _ h₁ h₂ hw := ⟨(h₂ (h₁ hw).1).1, (h₁ hw).2.trans (h₂ (h₁ hw).1).2⟩

end Workspace

/-! ## 5. Edits -/

namespace Edit

open Workspace ScopeGraph.Graph

variable {w : Workspace} {c : ContextId} {d : DeclId}

theorem steps_updateContext {f : Context → Context} (hf : ∀ data, (f data).owner = data.owner) :
    Follows Steps (updateContext c f) :=
  follows_update fun w => .modifyContext w c hf

theorem steps_updateDeclaration {f : Declaration → Declaration}
    (hf : ∀ data, (f data).internal = data.internal ∧ (f data).key = data.key ∧
      (f data).name = data.name) : Follows Steps (updateDeclaration d f) :=
  follows_update fun w => .modifyDeclaration w d hf

theorem steps_warn (x : Warning) : Follows Steps (warn x) :=
  follows_update fun _ => .contexts (fun _ => rfl) rfl

theorem steps_addDeclaration (c : ContextId) (d : DeclId) : Follows Steps (addDeclaration c d) :=
  fun w => after_addDeclaration (.refl w) fun _ data _ _ _ => .moveDeclaration w c d data.context

theorem steps_removeDeclaration (c : ContextId) (d : DeclId) :
    Follows Steps (removeDeclaration c d) :=
  fun w => after_removeDeclaration (.refl w) fun _ _ _ _ _ => .dropDeclaration w c d

theorem steps_setDeclarationContext (d : DeclId) (c : Option ContextId) :
    Follows Steps (setDeclarationContext d c) := by
  cases c with
  | some c => exact (steps_addDeclaration c d).bind fun _ => follows_pure ()
  | none =>
    refine (follows_needDeclaration d).bind fun data => ?_
    cases data.context with
    | none => exact follows_pure ()
    | some c => exact (steps_removeDeclaration c d).bind fun _ => follows_pure ()

theorem steps_rename (d : DeclId) (name : Ident) : Follows Steps (rename d name) :=
  fun w => after_rename (.refl w) fun data _ _ => .renameDeclaration w d data name

theorem steps_setRange (d : DeclId) (range : Span) : Follows Steps (setRange d range) :=
  fun w => after_setRange (.refl w) fun data _ _ => .placeDeclaration w d data range

theorem steps_clearDeclarations (c : ContextId) : Follows Steps (clearDeclarations c) := by
  refine follows_graph.bind fun g => Follows.bind (follows_forEach (fun d => ?_) _) fun _ =>
    follows_pure _
  exact (steps_removeDeclaration c d).bind fun _ => follows_pure ()

theorem steps_addChild (p c : ContextId) : Follows Steps (addChild p c) :=
  fun w => after_addChild (.refl w) (steps_warn _ w) fun parent child _ _ _ _ _ =>
    .adopt w p c parent child

theorem steps_removeChild (p c : ContextId) : Follows Steps (removeChild p c) :=
  fun w => after_removeChild (.refl w) fun _ _ _ => .abandon w p c

theorem steps_setKind (c : ContextId) (kind : ContextKind) : Follows Steps (setKind c kind) := by
  intro w
  have hset : Steps w (w.onGraph (·.modifyContext c ({ · with kind := kind }))) :=
    .modifyContext w c fun _ => rfl
  exact after_setKind (.refl w) fun _ _ _ => hset.trans (.syncContext _ c)

theorem steps_setScopeName (c : ContextId) (name : QualName) :
    Follows Steps (setScopeName c name) := by
  intro w
  have hset : Steps w (w.onGraph (·.modifyContext c ({ · with scopeName := name }))) :=
    .modifyContext w c fun _ => rfl
  exact after_setScopeName (.refl w) (fun _ _ _ => hset) fun _ _ _ => hset.trans (.syncSubtree _ c)

theorem steps_setPropagates (c : ContextId) (on : Bool) : Follows Steps (setPropagates c on) := by
  intro w
  refine after_setPropagates (.refl w) (fun _ _ _ => ?on) fun _ _ _ => ?off
  case on =>
    refine .contexts (fun x => ?_) (declarations_shareWithParent c)
    refine (map_context?_shareWithParent (fun _ _ _ _ => ?_) c x).trans
      (map_context?_modifyContext w.graph c (fun _ => ?_) x) <;> rfl
  case off =>
    refine .contexts (fun x => ?_) (declarations_withdrawFromParent c)
    refine (map_context?_modifyContext _ c (fun _ => ?_) x).trans
      (map_context?_withdrawFromParent (fun _ _ _ => ?_) x) <;> rfl

theorem steps_registerTop (t : TopId) (registered : Bool) :
    Follows Steps (needFile t >>= fun _ => update (·.registerSubtree t.context registered)) :=
  (follows_needFile t).bind fun _ => follows_update fun w => .registerSubtree w _ _

theorem steps_setInternal (d : DeclId) (internal : Option ContextId) :
    Follows Steps (setInternal d internal) :=
  fun w => after_setInternal (.refl w) fun _ hd hlive =>
    .single (.link hd fun c hc => Option.isSome_iff_exists.mpr (hlive c hc))

/-- An owner that is gone already leaves nothing behind. -/
theorem steps_clearDeadOwner {data : Context} (hc : w.graph.context? c = some data)
    (hdead : ∀ e, data.owner = some e → w.graph.declaration? e = none) :
    Steps w (w.onGraph (·.modifyContext c ({ · with owner := none }))) := by
  refine .single (.disown (c := c) (fun x => ?_) fun x => ?_)
  · simp only [onGraph, ownerOf?, context?_modifyContext]
    split
    · cases w.graph.context? x <;> rfl
    · rfl
  · show w.graph.declaration? x = _
    split
    · next howner =>
      have hx : data.owner = some x := by
        unfold ownerOf? at howner
        rw [hc] at howner
        exact howner
      unfold clearInternal
      rw [declaration?_modifyDeclaration, if_pos rfl, hdead x hx]
      rfl
    · rfl

theorem steps_setOwner (c : ContextId) (owner : Option DeclId) :
    Follows Steps (setOwner c owner) :=
  fun w => after_setOwner (.refl w)
    (fun _ _ _ hd hlive =>
      .single (.link hd fun c hc => Option.isSome_iff_exists.mpr (hlive c hc)))
    fun _ hc hdead => steps_clearDeadOwner hc hdead

theorem steps_setAliased (d : DeclId) (target : Option DeclId) :
    Follows Steps (setAliased d target) := by
  refine (follows_needDeclaration d).bind fun data => ?_
  split
  · refine Follows.bind (steps_updateDeclaration fun _ => ?_) fun _ => follows_pure true
    exact ⟨rfl, rfl, rfl⟩
  · exact (steps_warn _).bind fun _ => follows_pure false

theorem steps_setNamespaceTarget (d : DeclId) (target : QualName) :
    Follows Steps (setNamespaceTarget d target) := by
  refine (follows_needDeclaration d).bind fun data => ?_
  split
  · refine Follows.bind (steps_updateDeclaration fun _ => ?_) fun _ => follows_pure true
    exact ⟨rfl, rfl, rfl⟩
  · exact (steps_warn _).bind fun _ => follows_pure false

theorem steps_setType (d : DeclId) (type : Option TypeId) : Follows Steps (setType d type) :=
  (follows_needDeclaration d).bind fun _ => steps_updateDeclaration fun _ => ⟨rfl, rfl, rfl⟩

theorem steps_addImport (c target : ContextId) (position : Option Position) :
    Follows Steps (addImport c target position) := by
  intro w
  refine after_addImport (.refl w) (steps_warn _ w) (fun _ _ => ?_) fun data _ _ _ _ _ => ?_
  · exact .modifyContext w c fun _ => rfl
  · have hlink : Steps w (w.linkImport c target position) := by
      refine .trans (.modifyContext w c fun _ => ?_) (.modifyContext _ target fun _ => ?_) <;> rfl
    refine hlink.trans (.contexts (fun x => ?_) ?_)
    all_goals
      rw [graph_forgetIf]
      unfold warnUnlessTop
      split <;> rfl

theorem steps_removeImport (c target : ContextId) : Follows Steps (removeImport c target) :=
  fun w => after_removeImport (fun _ => .refl w) fun data _ _ => .unimport w c target data.isTop

theorem steps_removeImports (c : ContextId) (targets : List ContextId) :
    Follows Steps (removeImports c targets) := by
  induction targets with
  | nil => exact follows_pure 0
  | cons target rest ih =>
    exact (steps_removeImport c target).bind fun _ => ih.bind fun _ => follows_pure _

theorem steps_clearImports (c : ContextId) : Follows Steps (clearImports c) :=
  (follows_needContext c).bind fun _ => steps_removeImports c _

theorem steps_createUse (c : ContextId) (index : Nat) (range : Span) (before : Option Nat) :
    Follows Steps (createUse c index range before) := by
  refine (follows_needContext c).bind fun data => Follows.bind ?_ fun _ => follows_pure _
  exact steps_updateContext fun _ => rfl

theorem steps_changeUse (c : ContextId) (place : Nat) (f : Use → Use) :
    Follows Steps (changeUse c place f) := by
  refine (follows_needContext c).bind fun data => ?_
  split
  · refine Follows.bind ?_ fun _ => follows_pure true
    exact steps_updateContext fun _ => rfl
  · exact follows_pure false

theorem steps_deleteUse (c : ContextId) (place : Nat) : Follows Steps (deleteUse c place) := by
  refine (follows_needContext c).bind fun data => ?_
  split
  · refine Follows.bind ?_ fun _ => follows_pure _
    exact steps_updateContext fun _ => rfl
  · exact follows_pure none

theorem steps_deleteUses (c : ContextId) : Follows Steps (deleteUses c) := by
  refine (follows_needContext c).bind fun _ => ?_
  exact steps_updateContext fun _ => rfl

theorem steps_fileEdit (t : TopId) (f : FileRecord → FileRecord) :
    Follows Steps (needFile t >>= fun _ => updateFile t f) :=
  (follows_needFile t).bind fun _ => steps_updateContext fun _ => rfl

theorem steps_declarationIndex (t : TopId) (d : DeclId) : Follows Steps (declarationIndex t d) := by
  refine (follows_needDeclaration d).bind fun _ => (follows_needFile t).bind fun r => ?_
  split
  · exact follows_pure _
  · refine Follows.bind ?_ fun _ => follows_pure _
    exact steps_updateContext fun _ => rfl

/-! ## 6. Nodes that come and nodes that go -/

theorem steps_newContext (made : Context) (htidy : w.graph.contexts.Tidy)
    (howner : made.owner = none) : Steps w ((newContext made).after w) := by
  refine .single (.contexts (funext fun x => ?_) rfl)
  show (w.graph.insertContext made).ownerOf? x = _
  unfold ownerOf?
  rw [context?_insertContext made htidy]
  split
  · next hx =>
    rw [hx, context?_nextContext made htidy]
    exact howner
  · rfl

theorem steps_newDeclaration (made : Declaration) (htidy : w.graph.declarations.Tidy)
    (hinternal : made.internal = none) (hkey : made.key = none) :
    Steps w ((newDeclaration made).after w) :=
  .single (.make rfl (declaration?_nextDeclaration made htidy)
    (declaration?_insertDeclaration made htidy) hinternal hkey)

theorem steps_createContext (htidy : w.graph.contexts.Tidy) (p : ContextId) (range : Span) :
    Steps w ((createContext p range).after w) := by
  cases hp : w.graph.context? p with
  | none =>
    unfold createContext after
    rw [needContext_bind, hp]
    exact .refl w
  | some parent =>
    rw [createContext_after hp]
    exact (steps_newContext { range := range } htidy rfl).trans (steps_addChild p _ _)

theorem steps_createAnonymous (htidy : w.graph.contexts.Tidy) (p : ContextId) (range : Span) :
    Steps w ((createAnonymous p range).after w) :=
  related_needContext fun _ _ =>
    steps_newContext { range := range, parent := some p, anonymous := true } htidy rfl

theorem steps_declare (htidy : w.graph.declarations.Tidy) (c : ContextId) (name : Ident)
    (range : Span) (kind : DeclKind) : Steps w ((declare c name range kind).after w) := by
  refine related_needContext fun _ _ => related_bind ?_ fun d w₁ _ => ?_
  · exact steps_newDeclaration { name := name, range := range, kind := kind } htidy rfl rfl
  · exact ((steps_addDeclaration c d).bind fun _ => follows_pure d) w₁

theorem consistentSteps_deleteDeclaration (d : DeclId) :
    Follows ConsistentSteps (deleteDeclaration d) := by
  refine fun w => after_deleteDeclaration (fun hw => ⟨hw, .refl w⟩) fun data hd hw => ?_
  exact ⟨(discards hd).consistent hw (outline_declaration.mpr ⟨data, hd, rfl⟩) rfl, .discard hd⟩

theorem consistentSteps_deleteContext (c : ContextId) :
    Follows ConsistentSteps (deleteContext c) := by
  intro w hw
  refine after_deleteContext (P := fun w' => w'.graph.Consistent ∧ w.Steps w') hw
    (fun _ => ⟨hw, .refl w⟩) fun w' data hteardown hbare => ?_
  exact ⟨(released (hteardown.consistent hw) hbare).1, hteardown.steps.trans (.release hbare)⟩

theorem consistentSteps_clean (c : ContextId) (keep : List Node) :
    Follows ConsistentSteps (clean c keep) :=
  follows_clean consistentSteps_deleteDeclaration consistentSteps_deleteContext c keep

end Edit

/-! ## 7. Every change -/

/-- **Every change is a chain of steps.** -/
theorem Change.steps {w : Workspace} (hw : w.graph.Consistent) (htidy : w.graph.contexts.Tidy)
    (e : Change) : w.Steps (e.apply w) := by
  cases e with
  | createTop file range => exact Edit.steps_newContext _ htidy rfl
  | createContext p range => exact Edit.steps_createContext htidy p range
  | createAnonymous p range => exact Edit.steps_createAnonymous htidy p range
  | addChild p c => exact Edit.steps_addChild p c w
  | removeChild p c => exact Edit.steps_removeChild p c w
  | setKind c kind => exact Edit.steps_setKind c kind w
  | setScopeName c name => exact Edit.steps_setScopeName c name w
  | setPropagates c on => exact Edit.steps_setPropagates c on w
  | declare c name range kind => exact Edit.steps_declare hw.entered.tidy c name range kind
  | addDeclaration c d => exact Edit.steps_addDeclaration c d w
  | removeDeclaration c d => exact Edit.steps_removeDeclaration c d w
  | setDeclarationContext d c => exact Edit.steps_setDeclarationContext d c w
  | rename d name => exact Edit.steps_rename d name w
  | setRange d range => exact Edit.steps_setRange d range w
  | setType d type => exact Edit.steps_setType d type w
  | setInternal d internal => exact Edit.steps_setInternal d internal w
  | setOwner c owner => exact Edit.steps_setOwner c owner w
  | setAliased d target => exact Edit.steps_setAliased d target w
  | setNamespaceTarget d target => exact Edit.steps_setNamespaceTarget d target w
  | addImport c target position => exact Edit.steps_addImport c target position w
  | removeImport c target => exact Edit.steps_removeImport c target w
  | clearImports c => exact Edit.steps_clearImports c w
  | createUse c index range before => exact Edit.steps_createUse c index range before w
  | setUseRange c place range => exact Edit.steps_changeUse c place _ w
  | setUseIndex c place index => exact Edit.steps_changeUse c place _ w
  | deleteUse c place => exact Edit.steps_deleteUse c place w
  | deleteUses c => exact Edit.steps_deleteUses c w
  | register t => exact Edit.steps_registerTop t true w
  | unregister t => exact Edit.steps_registerTop t false w
  | addProblem t p => exact Edit.steps_fileEdit t _ w
  | clearProblems t => exact Edit.steps_fileEdit t _ w
  | setFlags t flags => exact Edit.steps_fileEdit t _ w
  | setHasUses t on => exact Edit.steps_fileEdit t _ w
  | setIdentity t identity => exact Edit.steps_fileEdit t _ w
  | declarationIndex t d => exact Edit.steps_declarationIndex t d w
  | deleteDeclaration d => exact (Edit.consistentSteps_deleteDeclaration d w hw).2
  | clearDeclarations c => exact Edit.steps_clearDeclarations c w
  | deleteContext c => exact (Edit.consistentSteps_deleteContext c w hw).2
  | clean c keep => exact (Edit.consistentSteps_clean c keep w hw).2

namespace Workspace

/-- **After every sequence of calls owners are linked both ways, and every key ends
    in the name of its declaration.** -/
theorem stepped_run {limits : Limits} {calls : List Call} (hfrees : (empty limits).FewFrees calls) :
    ((empty limits).run calls).graph.Owned ∧ ((empty limits).run calls).graph.Labelled := by
  have hrun := run_invariant (I := fun w _ => (∃ s, w.Kept s) ∧ w.graph.Owned ∧ w.graph.Labelled)
    ?_ calls _ (faithful_empty limits) hfrees.lasts
    ⟨⟨0, kept_empty limits⟩, fun _ _ => ⟨nofun, nofun⟩, nofun⟩
  · exact hrun.2.2
  · intro w call rest hw hages hi
    obtain ⟨⟨s, hkept⟩, howned, hlabelled⟩ := hi
    cases call with
    | change e =>
      obtain ⟨s', hkept', _⟩ := e.kept hw hages hkept
      have hsteps := e.steps hkept.kempt.consistent hw.linked.tidy
      exact ⟨⟨s', hkept'⟩, howned.steps hsteps, hlabelled.steps hsteps⟩
    | question q =>
      have hgraph := (q.keeps (fun s t => Graph.keeps_hopTowards s t) hw.coherent).2
      exact ⟨⟨s, hgraph ▸ hkept.kempt, hgraph ▸ hkept.anchored⟩, hgraph ▸ howned,
        hgraph ▸ hlabelled⟩

/-- **Owners and what they open are a bijection in every state.** A live declaration owns
    a live context exactly if it opens it, and what is named as an owner or as opened is
    there. -/
theorem owner_iff_internal (limits : Limits) (calls : List Call)
    (hfrees : (empty limits).FewFrees calls) :
    let g := ((empty limits).run calls).graph
    (∀ c context d declaration, g.context? c = some context →
      g.declaration? d = some declaration →
        (context.owner = some d ↔ declaration.internal = some c)) ∧
      (∀ c context d, g.context? c = some context → context.owner = some d →
        g.hasDeclaration d = true) ∧
      ∀ d declaration c, g.declaration? d = some declaration → declaration.internal = some c →
        g.hasContext c = true := by
  intro g
  have howned : g.Owned := (stepped_run hfrees).1
  have howner : ∀ c context, g.context? c = some context → g.ownerOf? c = context.owner := by
    intro c context hc
    rw [Graph.ownerOf?, hc, Option.bind_some]
  have hopens : ∀ d declaration, g.declaration? d = some declaration →
      g.internalOf? d = declaration.internal := by
    intro d declaration hd
    rw [Graph.internalOf?, hd, Option.bind_some]
  refine ⟨fun c context d declaration hc hd => ?_, fun c context d hc hd => ?_,
    fun d declaration c hd hc => ?_⟩
  · rw [← howner c context hc, ← hopens d declaration hd]
    exact howned c d
  · have hlink := (howned c d).mp ((howner c context hc).trans hd)
    obtain ⟨declaration, hdecl, _⟩ := Option.bind_eq_some_iff.mp hlink
    exact Option.isSome_of_eq_some hdecl
  · have hlink := (howned c d).mpr ((hopens d declaration hd).trans hc)
    obtain ⟨context, hcontext, _⟩ := Option.bind_eq_some_iff.mp hlink
    exact Option.isSome_of_eq_some hcontext

/-- Two contexts and two declarations. The first context goes from one declaration to the
    other, then the other one takes the second context, and at last the first context is
    deleted while the first declaration owns it. -/
def changingOwners : List Call :=
  [.change (.createTop ⟨0⟩ {}), .change (.createContext ⟨0, 0⟩ {}),
    .change (.createContext ⟨0, 0⟩ {}), .change (.declare ⟨0, 0⟩ "f" {} .ordinary),
    .change (.declare ⟨0, 0⟩ "g" {} .ordinary), .change (.setInternal ⟨0, 0⟩ (some ⟨1, 0⟩)),
    .change (.setInternal ⟨1, 0⟩ (some ⟨1, 0⟩)), .change (.setOwner ⟨2, 0⟩ (some ⟨1, 0⟩)),
    .change (.setInternal ⟨0, 0⟩ (some ⟨1, 0⟩)), .change (.deleteContext ⟨1, 0⟩)]

/-- In the end the second declaration and the second context have each other, and the
    first declaration opens nothing. -/
theorem owner_iff_internal_changing :
    let g := ((empty {}).run changingOwners).graph
    (∃ context declaration, g.context? ⟨2, 0⟩ = some context ∧
      g.declaration? ⟨1, 0⟩ = some declaration ∧ context.owner = some ⟨1, 0⟩ ∧
      declaration.internal = some ⟨2, 0⟩) ∧
    g.hasContext ⟨1, 0⟩ = false ∧ g.hasDeclaration ⟨0, 0⟩ = true ∧
      g.internalOf? ⟨0, 0⟩ ≠ some ⟨1, 0⟩ := by
  intro g
  obtain ⟨hiff, _, hlive⟩ :=
    owner_iff_internal {} changingOwners (fewFrees_of_length (by decide))
  have howner : g.ownerOf? ⟨2, 0⟩ = some ⟨1, 0⟩ := by decide
  have hthere : (g.declaration? ⟨1, 0⟩).isSome = true := by decide
  obtain ⟨context, hc, howner⟩ := Option.bind_eq_some_iff.mp howner
  obtain ⟨declaration, hd⟩ := Option.isSome_iff_exists.mp hthere
  refine ⟨⟨context, declaration, hc, hd, howner, (hiff _ _ _ _ hc hd).mp howner⟩, by decide,
    by decide, fun hlink => ?_⟩
  obtain ⟨declaration, hdecl, hopens⟩ := Option.bind_eq_some_iff.mp hlink
  have hthere : g.hasContext ⟨1, 0⟩ = true := hlive _ _ _ hdecl hopens
  exact absurd hthere (by decide)

end Workspace

end ScopeGraph
