/-
  File:      ScopeGraph/Proofs/Frames.lean
  Subject:   What each change of a workspace leaves alone.

  A change writes some fields of some nodes, and leaves alone every view that overlooks
  these fields. `Change.footprint` sorts the changes by what they write, and for each
  footprint one theorem says which views look the same afterwards:

  * owners, uses, and of declarations the kind, the type and what they open
    (`Change.same_of_owners`);
  * imports and the hop memo (`Change.same_of_imports`);
  * what is known of a file (`Change.same_of_file`);
  * names, lists, indices and the symbol table (`Change.same_of_contents`);
  * the tree (`Change.same_of_tree`).
-/
import ScopeGraph.Proofs.Effects

namespace ScopeGraph

/-! ## 1. Views that overlook a part of a workspace -/

/-- The declaration without its kind, its type and what it opens. -/
def Declaration.core (data : Declaration) : Declaration :=
  { data with kind := .ordinary, type := none, internal := none }

namespace Graph.View

variable {β γ δ : Type} (V : View β γ δ)

/-- The view shows neither owners nor uses, and of declarations neither the kind nor the
    type nor what they open. -/
structure OverlooksOwners : Prop where
  owner : ∀ data x, V.context { data with owner := x } = V.context data
  uses : ∀ data x, V.context { data with uses := x } = V.context data
  declaration : ∀ g d f, (∀ data, (f data).core = data.core) → V.Same g (g.modifyDeclaration d f)

/-- The view shows neither parents nor children. -/
structure OverlooksTree : Prop where
  parent : ∀ data x, V.context { data with parent := x } = V.context data
  children : ∀ data x, V.context { data with children := x } = V.context data

/-- The view shows nothing of the table, and of no node how it is registered. -/
structure OverlooksRegistry : Prop where
  registered : ∀ data x, V.context { data with registered := x } = V.context data
  key : ∀ data x, V.context { data with key := x } = V.context data
  declarationKey : ∀ g d key, V.Same g (g.modifyDeclaration d ({ · with key := key }))
  table : ∀ contexts declarations limits table table',
    V.shown contexts declarations limits table = V.shown contexts declarations limits table'

/-- The view shows of contexts neither what they hold nor what they are called nor how
    they are registered, and nothing of declarations and of the table. -/
structure OverlooksContents : Prop where
  locals : ∀ data x, V.context { data with locals := x } = V.context data
  kind : ∀ data x, V.context { data with kind := x } = V.context data
  scopeName : ∀ data x, V.context { data with scopeName := x } = V.context data
  propagates : ∀ data x, V.context { data with propagates := x } = V.context data
  registered : ∀ data x, V.context { data with registered := x } = V.context data
  key : ∀ data x, V.context { data with key := x } = V.context data
  others : ∀ contexts declarations declarations' limits table table',
    V.shown contexts declarations limits table = V.shown contexts declarations' limits table'

variable {V}

theorem OverlooksContents.of_contexts (hV : V.OverlooksContents) {g g' : Graph}
    (hcontexts : g'.contexts = g.contexts) (hlimits : g'.limits = g.limits) : V.Same g g' := by
  show V.shown (g'.contexts.map _) _ g'.limits _ = V.shown (g.contexts.map _) _ g.limits _
  rw [hcontexts, hlimits]
  exact hV.others ..

theorem OverlooksContents.registry (hV : V.OverlooksContents) : V.OverlooksRegistry where
  registered := hV.registered
  key := hV.key
  declarationKey _ _ _ := hV.of_contexts rfl rfl
  table _ _ _ _ _ := hV.others ..

namespace Same

theorem linkInternal (hV : V.OverlooksOwners) (g : Graph) (d : DeclId)
    (previous internal : Option ContextId) : V.Same g (g.linkInternal d previous internal) := by
  have hletGo : ∀ g : Graph, V.Same g (g.letGo d previous) := by
    intro g
    cases previous with
    | none => exact .refl g
    | some p => exact clearOwner hV.owner g p d
  have hdisplace : ∀ (g : Graph) c, V.Same g (g.displace d c) := by
    intro g c
    unfold displace
    split
    · split
      · exact .refl g
      · refine hV.declaration g _ _ fun data => ?_
        split <;> rfl
    · exact .refl g
  have hset : ∀ g : Graph, V.Same g (g.modifyDeclaration d ({ · with internal := internal })) :=
    fun g => hV.declaration g d _ fun _ => rfl
  cases internal with
  | none => exact (hletGo g).trans (hset _)
  | some c =>
    have howner := modifyContext (V := V) ((g.letGo d previous).displace d c) c
      fun data => hV.owner data (some d)
    exact (((hletGo g).trans (hdisplace _ c)).trans howner).trans (hset _)

theorem linkChild (hindex : ∀ (data : Context) (l : Locals), l.ordered = data.locals.ordered →
      V.context { data with locals := l } = V.context data) (hV : V.OverlooksTree)
    (g : Graph) (p c : ContextId) : V.Same g (g.linkChild p c) :=
  ((modifyContext g p fun data => hV.children data _).trans
    (modifyContext _ c fun data => hV.parent data _)).trans (shareWithParent hindex _ c)

end Same

end Graph.View

namespace Workspace

/-- What is shown of a workspace: a view of its graph, and something of the hop memo and
    of the changes of the table. -/
structure View (β γ δ ε : Type) where
  graph : Graph.View β γ δ
  rest : HopMemo → List TableEvent → ε

namespace View

variable {β γ δ ε : Type}

/-- What a view shows of a workspace. -/
def of (V : View β γ δ ε) (w : Workspace) : δ × ε := (V.graph.of w.graph, V.rest w.memo w.events)

/-- The view of a graph, and of nothing else. -/
def ofGraph (V : Graph.View β γ δ) : View β γ δ Unit where
  graph := V
  rest _ _ := ()

/-- Two workspaces look the same under a view. -/
abbrev Same (V : View β γ δ ε) : Workspace → Workspace → Prop := SameUnder V.of

variable (V : View β γ δ ε)

/-- The view shows neither imports nor what is remembered of them. -/
structure OverlooksImports : Prop where
  imports : ∀ data x, V.graph.context { data with imports := x } = V.graph.context data
  importers : ∀ data x, V.graph.context { data with importers := x } = V.graph.context data
  memo : ∀ memo memo' events, V.rest memo events = V.rest memo' events

/-- The view shows nothing of the table and of how it was changed. -/
structure OverlooksRegistry : Prop where
  graph : V.graph.OverlooksRegistry
  events : ∀ memo events events', V.rest memo events = V.rest memo events'

/-- The view shows nothing of what contexts hold and of the table, and not how the table
    was changed. -/
structure OverlooksContents : Prop where
  graph : V.graph.OverlooksContents
  events : ∀ memo events events', V.rest memo events = V.rest memo events'

variable {V}

theorem OverlooksContents.registry (hV : V.OverlooksContents) : V.OverlooksRegistry :=
  ⟨hV.graph.registry, hV.events⟩

/-! ## 2. The parts of edits -/

variable {w w' : Workspace}

namespace Same

theorem mk (hgraph : V.graph.Same w.graph w'.graph)
    (hrest : V.rest w'.memo w'.events = V.rest w.memo w.events) : V.Same w w' :=
  Prod.ext hgraph hrest

theorem graph (h : V.Same w w') : V.graph.Same w.graph w'.graph := congrArg Prod.fst h

theorem rest (h : V.Same w w') : V.rest w'.memo w'.events = V.rest w.memo w.events :=
  congrArg Prod.snd h

theorem onGraph {f : Graph → Graph} (h : V.graph.Same w.graph (f w.graph)) :
    V.Same w (w.onGraph f) := mk h rfl

theorem warn (w : Workspace) (x : Warning) : V.Same w (w.warn x) := rfl

theorem thenOnGraph {w₀ : Workspace} {f : Graph → Graph} (h : V.Same w₀ w)
    (hf : V.graph.Same w.graph (f w.graph)) : V.Same w₀ (w.onGraph f) :=
  h.trans (onGraph hf)

theorem thenWhenSome {α : Type} {w₀ : Workspace} {o : Option α}
    {f : α → Workspace → Workspace} (h : V.Same w₀ w) (hf : ∀ a, V.Same w (f a w)) :
    V.Same w₀ (w.whenSome o f) :=
  h.trans (related_whenSome hf)

section Imports

variable (hV : V.OverlooksImports)

include hV

theorem setImportPosition (w : Workspace) (c target : ContextId) (position : Option Position) :
    V.Same w (w.setImportPosition c target position) :=
  onGraph (.modifyContext _ c fun data => hV.imports data _)

theorem linkImport (w : Workspace) (c target : ContextId) (position : Option Position) :
    V.Same w (w.linkImport c target position) :=
  (onGraph (.modifyContext w.graph c fun data => hV.imports data _)).trans
    (onGraph (.modifyContext _ target fun data => hV.importers data _))

theorem unlinkImport (w : Workspace) (c target : ContextId) :
    V.Same w (w.unlinkImport c target) :=
  (onGraph (.modifyContext w.graph c fun data => hV.imports data _)).trans
    (onGraph (.modifyContext _ target fun data => hV.importers data _))

theorem forgetIf (w : Workspace) (isTop : Bool) (c : ContextId) :
    V.Same w (w.forgetIf isTop c) := by
  cases isTop with
  | false => exact .refl w
  | true => exact mk (.refl _) (hV.memo ..)

end Imports

section Registry

variable (hV : V.OverlooksRegistry)

include hV

theorem changeTable (w : Workspace) (change : TableChange) : V.Same w (w.changeTable change) :=
  mk (hV.graph.table ..) (hV.events ..)

theorem syncDeclaration (w : Workspace) (d : DeclId) : V.Same w (w.syncDeclaration d) := by
  unfold Workspace.syncDeclaration
  split
  · dsimp only
    split
    · exact .refl w
    · have hkey : V.Same w (w.onGraph (·.modifyDeclaration d
          ({ · with key := w.graph.declarationKey? d }))) :=
        onGraph (hV.graph.declarationKey w.graph d _)
      exact hkey.trans (related_foldl (changeTable hV) _ _)
  · exact .refl w

theorem syncContextKey (w : Workspace) (c : ContextId) : V.Same w (w.syncContextKey c) := by
  unfold Workspace.syncContextKey
  split
  · dsimp only
    split
    · exact .refl w
    · have hkey : V.Same w (w.onGraph (·.modifyContext c
          ({ · with key := w.graph.contextKey? c }))) :=
        onGraph (.modifyContext w.graph c fun data => hV.graph.key data _)
      exact hkey.trans (related_foldl (changeTable hV) _ _)
  · exact .refl w

theorem syncContext (w : Workspace) (c : ContextId) : V.Same w (w.syncContext c) :=
  (syncContextKey hV w c).trans (related_foldl (syncDeclaration hV) _ _)

theorem syncSubtree (w : Workspace) (c : ContextId) : V.Same w (w.syncSubtree c) :=
  related_foldl (syncContext hV) _ w

theorem markSubtree (w : Workspace) (c : ContextId) (registered : Bool) :
    V.Same w (w.markSubtree c registered) :=
  onGraph (related_foldl (fun g c => .modifyContext g c fun data =>
    hV.graph.registered data _) _ w.graph)

theorem registerSubtree (w : Workspace) (c : ContextId) (registered : Bool) :
    V.Same w (w.registerSubtree c registered) :=
  (markSubtree hV w c registered).trans (syncSubtree hV _ c)

end Registry

/-- A declaration that goes, under a view that shows nothing of declarations and of the
    table, and of contexts neither what they hold nor owners nor files. -/
theorem discard
    (hlocals : ∀ data x, V.graph.context { data with locals := x } = V.graph.context data)
    (howner : ∀ data x, V.graph.context { data with owner := x } = V.graph.context data)
    (hfile : ∀ (data : Context) (f : FileRecord → FileRecord),
      V.graph.context { data with file := data.file.map f } = V.graph.context data)
    (hothers : ∀ g g' : Graph, g'.contexts = g.contexts → g'.limits = g.limits → V.graph.Same g g')
    (hevents : ∀ memo events events', V.rest memo events = V.rest memo events')
    (w : Workspace) (d : DeclId) (data : Declaration) : V.Same w (w.discard d data) := by
  unfold Workspace.discard
  refine thenOnGraph (thenWhenSome (thenWhenSome (thenWhenSome (thenOnGraph
    (thenWhenSome (.refl w) ?detach) ?key) ?table) ?owner) ?file) ?erase
  case detach => exact fun c => onGraph (.detach hlocals _ c d)
  case owner => exact fun c => onGraph (.clearOwner howner _ c d)
  case file => exact fun t => onGraph (.modifyContext _ _ fun data => hfile data _)
  case table => exact fun key => mk (hothers _ _ rfl rfl) (hevents ..)
  case key | erase => exact hothers _ _ rfl rfl

section Contents

variable (hV : V.OverlooksContents)

include hV

theorem modifyDeclaration (w : Workspace) (d : DeclId) (f : Declaration → Declaration) :
    V.Same w (w.onGraph (·.modifyDeclaration d f)) :=
  onGraph (hV.graph.of_contexts rfl rfl)

theorem detach (w : Workspace) (c : ContextId) (d : DeclId) :
    V.Same w (w.onGraph (·.detach c d)) :=
  onGraph (.detach hV.graph.locals w.graph c d)

theorem moveDeclaration (w : Workspace) (c : ContextId) (d : DeclId)
    (previous : Option ContextId) : V.Same w (w.moveDeclaration c d previous) := by
  unfold Workspace.moveDeclaration
  have hout : V.Same w (w.whenSome previous fun p w => w.onGraph (·.detach p d)) :=
    related_whenSome fun p => detach hV w p d
  exact ((hout.trans (onGraph (.attach hV.graph.locals _ c d))).trans
    (modifyDeclaration hV _ d _)).trans (syncDeclaration hV.registry _ d)

theorem dropDeclaration (w : Workspace) (c : ContextId) (d : DeclId) :
    V.Same w (w.dropDeclaration c d) :=
  ((detach hV w c d).trans (modifyDeclaration hV _ d _)).trans (syncDeclaration hV.registry _ d)

theorem renameDeclaration (w : Workspace) (d : DeclId) (data : Declaration) (name : Ident) :
    V.Same w (w.renameDeclaration d data name) := by
  have hindex := fun data l (_ : l.ordered = data.locals.ordered) => hV.graph.locals data l
  have hnames : V.Same w (w.whenSome data.context fun c w => w.onGraph fun g =>
      (g.recallNames c [(data.name, d)]).spreadNames c [(name, d)]) := by
    refine related_whenSome fun c => onGraph ?_
    exact (Graph.View.Same.recallNames hindex w.graph c _).trans
      (Graph.View.Same.spreadNames hindex _ c _)
  exact (hnames.trans (modifyDeclaration hV _ d _)).trans (syncDeclaration hV.registry _ d)

theorem placeDeclaration (w : Workspace) (d : DeclId) (data : Declaration) (range : Span) :
    V.Same w (w.placeDeclaration d data range) := by
  unfold Workspace.placeDeclaration
  dsimp only
  split
  · exact (modifyDeclaration hV w d _).trans
      (related_whenSome fun c => onGraph (.modifyLocals hV.graph.locals _ c _))
  · exact modifyDeclaration hV w d _

theorem adopt (htree : V.graph.OverlooksTree) (w : Workspace) (p c : ContextId)
    (parent child : Context) : V.Same w (w.adopt p c parent child) := by
  have hindex : ∀ (data : Context) (l : Locals), l.ordered = data.locals.ordered →
      V.graph.context { data with locals := l } = V.graph.context data :=
    fun data l _ => hV.graph.locals data l
  unfold Workspace.adopt
  refine (SameUnder.trans (.trans ?warn (related_whenSome fun q => onGraph ?cut))
    (onGraph ?link)).trans (registerSubtree hV.registry _ c _)
  case warn => split <;> rfl
  case cut => exact .unlinkChild hindex htree.parent htree.children _ q c
  case link => exact .linkChild hindex htree _ p c

theorem abandon (htree : V.graph.OverlooksTree) (w : Workspace) (p c : ContextId) :
    V.Same w (w.abandon p c) := by
  have hcut : V.Same w (w.onGraph (·.unlinkChild p c)) :=
    onGraph (.unlinkChild (fun data l _ => hV.graph.locals data l) htree.parent htree.children
      _ p c)
  unfold Workspace.abandon
  dsimp only
  split
  · exact hcut.trans (registerSubtree hV.registry _ c false)
  · exact hcut

end Contents

end Same

end View

end Workspace

/-! ## 3. The edits -/

namespace Edit

open Workspace

variable {β γ δ ε : Type} {V : Workspace.View β γ δ ε}

theorem same_updateContext {c : ContextId} {f : Context → Context}
    (hf : ∀ data, V.graph.context (f data) = V.graph.context data) :
    Follows V.Same (updateContext c f) :=
  follows_update fun w => .onGraph (.modifyContext w.graph c hf)

theorem same_warn (x : Warning) : Follows V.Same (warn x) := follows_update fun w => .warn w x

theorem same_fileEdit (t : TopId) {f : FileRecord → FileRecord}
    (hf : ∀ data : Context, V.graph.context { data with file := data.file.map f } =
      V.graph.context data) : Follows V.Same (needFile t >>= fun _ => updateFile t f) :=
  (follows_needFile t).bind fun _ => same_updateContext hf

section Owners

variable (hV : V.graph.OverlooksOwners)

include hV

theorem same_updateDeclaration (d : DeclId) {f : Declaration → Declaration}
    (hf : ∀ data, (f data).core = data.core) : Follows V.Same (updateDeclaration d f) :=
  follows_update fun w => .onGraph (hV.declaration w.graph d f hf)

theorem same_setType (d : DeclId) (type : Option TypeId) : Follows V.Same (setType d type) :=
  (follows_needDeclaration d).bind fun _ => same_updateDeclaration hV d fun _ => rfl

theorem same_setInternal (d : DeclId) (internal : Option ContextId) :
    Follows V.Same (setInternal d internal) :=
  fun w => after_setInternal (.refl w) fun _ _ _ => .onGraph (.linkInternal hV w.graph d _ _)

theorem same_setOwner (c : ContextId) (owner : Option DeclId) :
    Follows V.Same (setOwner c owner) :=
  fun w => after_setOwner (.refl w) (fun d _ _ _ _ => .onGraph (.linkInternal hV w.graph d _ _))
    fun _ _ _ => .onGraph (.modifyContext w.graph c fun data => hV.owner data none)

theorem same_setAliased (d : DeclId) (target : Option DeclId) :
    Follows V.Same (setAliased d target) := by
  refine (follows_needDeclaration d).bind fun data => ?_
  split
  · refine Follows.bind (same_updateDeclaration hV d fun _ => ?_) fun _ => follows_pure true
    rfl
  · exact (same_warn _).bind fun _ => follows_pure false

theorem same_setNamespaceTarget (d : DeclId) (target : QualName) :
    Follows V.Same (setNamespaceTarget d target) := by
  refine (follows_needDeclaration d).bind fun data => ?_
  split
  · refine Follows.bind (same_updateDeclaration hV d fun _ => ?_) fun _ => follows_pure true
    rfl
  · exact (same_warn _).bind fun _ => follows_pure false

theorem same_createUse (c : ContextId) (index : Nat) (range : Span) (before : Option Nat) :
    Follows V.Same (createUse c index range before) :=
  (follows_needContext c).bind fun _ =>
    (same_updateContext fun data => hV.uses data _).bind fun _ => follows_pure _

theorem same_changeUse (c : ContextId) (place : Nat) (f : Use → Use) :
    Follows V.Same (changeUse c place f) := by
  refine (follows_needContext c).bind fun data => ?_
  split
  · exact (same_updateContext fun data => hV.uses data _).bind fun _ => follows_pure true
  · exact follows_pure false

theorem same_deleteUse (c : ContextId) (place : Nat) : Follows V.Same (deleteUse c place) := by
  refine (follows_needContext c).bind fun data => ?_
  split
  · exact (same_updateContext fun data => hV.uses data _).bind fun _ => follows_pure _
  · exact follows_pure none

theorem same_deleteUses (c : ContextId) : Follows V.Same (deleteUses c) :=
  (follows_needContext c).bind fun _ => same_updateContext fun data => hV.uses data _

end Owners

section Imports

variable (hV : V.OverlooksImports)

include hV

theorem same_addImport (c target : ContextId) (position : Option Position) :
    Follows V.Same (addImport c target position) := by
  intro w
  refine after_addImport (.refl w) (.warn w _) (fun _ _ => .setImportPosition hV w c target position)
    fun data _ _ _ _ _ => ?_
  have hwarn : ∀ w : Workspace, V.Same w (w.warnUnlessTop data.isTop target) := by
    intro w
    unfold warnUnlessTop
    split
    · exact .warn w _
    · exact .refl w
  exact ((View.Same.linkImport hV w c target position).trans (hwarn _)).trans
    (View.Same.forgetIf hV _ data.isTop c)

theorem same_removeImport (c target : ContextId) : Follows V.Same (removeImport c target) :=
  fun w => after_removeImport (fun _ => .refl w) fun data _ _ =>
    (View.Same.unlinkImport hV w c target).trans (View.Same.forgetIf hV _ data.isTop c)

theorem same_clearImports (c : ContextId) : Follows V.Same (clearImports c) := by
  have hall : ∀ targets, Follows V.Same (removeImports c targets) := by
    intro targets
    induction targets with
    | nil => exact follows_pure 0
    | cons target rest ih =>
      exact (same_removeImport hV c target).bind fun _ => ih.bind fun _ => follows_pure _
  exact (follows_needContext c).bind fun _ => hall _

end Imports

section Contents

variable (hV : V.OverlooksContents)

include hV

theorem same_addDeclaration (c : ContextId) (d : DeclId) : Follows V.Same (addDeclaration c d) :=
  fun w => after_addDeclaration (.refl w) fun _ data _ _ _ => .moveDeclaration hV w c d data.context

theorem same_removeDeclaration (c : ContextId) (d : DeclId) :
    Follows V.Same (removeDeclaration c d) :=
  fun w => after_removeDeclaration (.refl w) fun _ _ _ _ _ => .dropDeclaration hV w c d

theorem same_declare (c : ContextId) (name : Ident) (range : Span) (kind : DeclKind) :
    Follows V.Same (declare c name range kind) := by
  have hmake : ∀ data, Follows V.Same (newDeclaration data) :=
    fun data w => View.Same.mk (hV.graph.of_contexts rfl rfl) rfl
  exact (follows_needContext c).bind fun _ => (hmake _).bind fun d =>
    (same_addDeclaration hV c d).bind fun _ => follows_pure d

theorem same_setDeclarationContext (d : DeclId) (c : Option ContextId) :
    Follows V.Same (setDeclarationContext d c) := by
  cases c with
  | some c => exact (same_addDeclaration hV c d).bind fun _ => follows_pure ()
  | none =>
    refine (follows_needDeclaration d).bind fun data => ?_
    cases data.context with
    | none => exact follows_pure ()
    | some c => exact (same_removeDeclaration hV c d).bind fun _ => follows_pure ()

theorem same_clearDeclarations (c : ContextId) : Follows V.Same (clearDeclarations c) := by
  refine follows_graph.bind fun g => Follows.bind (follows_forEach (fun d => ?_) _) fun _ =>
    follows_pure _
  exact (same_removeDeclaration hV c d).bind fun _ => follows_pure ()

theorem same_rename (d : DeclId) (name : Ident) : Follows V.Same (rename d name) :=
  fun w => after_rename (.refl w) fun data _ _ => .renameDeclaration hV w d data name

theorem same_setRange (d : DeclId) (range : Span) : Follows V.Same (setRange d range) :=
  fun w => after_setRange (.refl w) fun data _ _ => .placeDeclaration hV w d data range

theorem same_setKind (c : ContextId) (kind : ContextKind) : Follows V.Same (setKind c kind) := by
  intro w
  have hkind : V.Same w (w.onGraph (·.modifyContext c ({ · with kind := kind }))) :=
    .onGraph (.modifyContext w.graph c fun data => hV.graph.kind data kind)
  exact after_setKind (.refl w) fun _ _ _ => hkind.trans (View.Same.syncContext hV.registry _ c)

theorem same_setScopeName (c : ContextId) (name : QualName) :
    Follows V.Same (setScopeName c name) := by
  intro w
  have hname : V.Same w (w.onGraph (·.modifyContext c ({ · with scopeName := name }))) :=
    .onGraph (.modifyContext w.graph c fun data => hV.graph.scopeName data name)
  exact after_setScopeName (.refl w) (fun _ _ _ => hname) fun _ _ _ =>
    hname.trans (View.Same.syncSubtree hV.registry _ c)

theorem same_setPropagates (c : ContextId) (on : Bool) : Follows V.Same (setPropagates c on) := by
  have hindex := fun data l (_ : l.ordered = data.locals.ordered) => hV.graph.locals data l
  have hset : ∀ (g : Graph) (b : Bool),
      V.graph.Same g (g.modifyContext c ({ · with propagates := b })) :=
    fun g b => .modifyContext g c fun data => hV.graph.propagates data b
  refine fun w => after_setPropagates (.refl w) (fun _ _ _ => .onGraph ?_) fun _ _ _ => .onGraph ?_
  · exact (hset w.graph true).trans (Graph.View.Same.shareWithParent hindex _ c)
  · exact (Graph.View.Same.withdrawFromParent hindex w.graph c).trans (hset _ false)

theorem same_registerTop (t : TopId) (registered : Bool) :
    Follows V.Same (needFile t >>= fun _ => update (·.registerSubtree t.context registered)) :=
  (follows_needFile t).bind fun _ => follows_update fun w => .registerSubtree hV.registry w _ _

theorem same_addChild (htree : V.graph.OverlooksTree) (p c : ContextId) :
    Follows V.Same (addChild p c) :=
  fun w => after_addChild (.refl w) (.warn w _) fun parent child _ _ _ _ _ =>
    .adopt hV htree w p c parent child

theorem same_removeChild (htree : V.graph.OverlooksTree) (p c : ContextId) :
    Follows V.Same (removeChild p c) :=
  fun w => after_removeChild (.refl w) fun _ _ _ => .abandon hV htree w p c

end Contents

end Edit

/-! ## 4. The changes -/

/-- What a change may write. -/
inductive Footprint where
  /-- Owners, uses, and of declarations the kind, the type and what they open. -/
  | owners
  /-- Imports, and what is remembered of them. -/
  | imports
  /-- What is known of a file, but for its numbers. -/
  | file
  /-- The numbers that declarations have in a file. -/
  | numbers
  /-- What contexts hold, what they are called, and how they are registered. -/
  | contents
  /-- The tree, and what hangs on it. -/
  | tree
  /-- The contexts themselves: there is one more. -/
  | making
  /-- The nodes themselves: some are gone. -/
  | teardown
  deriving DecidableEq

namespace Change

/-- What a change may write. -/
def footprint : Change → Footprint
  | .setType .. | .setInternal .. | .setOwner .. | .setAliased .. | .setNamespaceTarget ..
  | .createUse .. | .setUseRange .. | .setUseIndex .. | .deleteUse .. | .deleteUses .. => .owners
  | .addImport .. | .removeImport .. | .clearImports .. => .imports
  | .addProblem .. | .clearProblems .. | .setFlags .. | .setHasUses .. | .setIdentity .. => .file
  | .declarationIndex .. => .numbers
  | .setKind .. | .setScopeName .. | .setPropagates .. | .declare .. | .addDeclaration ..
  | .removeDeclaration .. | .setDeclarationContext .. | .rename .. | .setRange ..
  | .clearDeclarations .. | .register .. | .unregister .. => .contents
  | .addChild .. | .removeChild .. => .tree
  | .createTop .. | .createContext .. | .createAnonymous .. => .making
  | .deleteDeclaration .. | .deleteContext .. | .clean .. => .teardown

open Edit

variable {β γ δ ε : Type} {V : Workspace.View β γ δ ε} {e : Change}

theorem same_of_owners (h : e.footprint = .owners) (hV : V.graph.OverlooksOwners) (w : Workspace) :
    V.Same w (e.apply w) := by
  cases e with
  | setType d type => exact same_setType hV d type w
  | setInternal d internal => exact same_setInternal hV d internal w
  | setOwner c owner => exact same_setOwner hV c owner w
  | setAliased d target => exact same_setAliased hV d target w
  | setNamespaceTarget d target => exact same_setNamespaceTarget hV d target w
  | createUse c index range before => exact same_createUse hV c index range before w
  | setUseRange c place range => exact same_changeUse hV c place _ w
  | setUseIndex c place index => exact same_changeUse hV c place _ w
  | deleteUse c place => exact same_deleteUse hV c place w
  | deleteUses c => exact same_deleteUses hV c w
  | _ => cases h

theorem same_of_imports (h : e.footprint = .imports) (hV : V.OverlooksImports) (w : Workspace) :
    V.Same w (e.apply w) := by
  cases e with
  | addImport c target position => exact same_addImport hV c target position w
  | removeImport c target => exact same_removeImport hV c target w
  | clearImports c => exact same_clearImports hV c w
  | _ => cases h

theorem same_of_file (h : e.footprint = .file)
    (hV : ∀ (data : Context) (f : FileRecord → FileRecord), (∀ r, (f r).numbers = r.numbers) →
      V.graph.context { data with file := data.file.map f } = V.graph.context data)
    (w : Workspace) : V.Same w (e.apply w) := by
  cases e with
  | addProblem t _ | clearProblems t | setFlags t _ | setHasUses t _ | setIdentity t _ =>
    refine same_fileEdit t (fun data => hV data _ ?_) w
    exact fun _ => rfl
  | _ => cases h

theorem same_of_contents (h : e.footprint = .contents) (hV : V.OverlooksContents) (w : Workspace) :
    V.Same w (e.apply w) := by
  cases e with
  | setKind c kind => exact same_setKind hV c kind w
  | setScopeName c name => exact same_setScopeName hV c name w
  | setPropagates c on => exact same_setPropagates hV c on w
  | declare c name range kind => exact same_declare hV c name range kind w
  | addDeclaration c d => exact same_addDeclaration hV c d w
  | removeDeclaration c d => exact same_removeDeclaration hV c d w
  | setDeclarationContext d c => exact same_setDeclarationContext hV d c w
  | rename d name => exact same_rename hV d name w
  | setRange d range => exact same_setRange hV d range w
  | clearDeclarations c => exact same_clearDeclarations hV c w
  | register t => exact same_registerTop hV t true w
  | unregister t => exact same_registerTop hV t false w
  | _ => cases h

theorem same_of_tree (h : e.footprint = .tree) (hV : V.OverlooksContents)
    (htree : V.graph.OverlooksTree) (w : Workspace) : V.Same w (e.apply w) := by
  cases e with
  | addChild p c => exact same_addChild hV htree p c w
  | removeChild p c => exact same_removeChild hV htree p c w
  | _ => cases h

end Change

end ScopeGraph
