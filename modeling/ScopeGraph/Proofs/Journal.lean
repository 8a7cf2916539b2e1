/-
  File:      ScopeGraph/Proofs/Journal.lean
  Subject:   What the journal tells of one node: entries and removals in turn.

  The journal holds the changes of the symbol table in order. The account of a
  node is what it tells of this node.

  * `Alternates`: an account in which entries and removals take turns, each
    removal at the path of the entry before it, and each found what it removes;
  * `Workspace.Writes`: what a step adds to the account of a node goes on from
    the path that the node said before to the path that it says after;
  * `Workspace.Refiles`: a step in which no node comes or goes. Only nodes that
    are there get into the journal;
  * `Workspace.Clears`: a step of a teardown. It writes nothing but removals,
    one for each node that was held;
  * `Change.logs`: every change is of one of these sorts, or makes a node first;
  * `Workspace.journal_in_turn`: the account of a node after every sequence of
    calls.
-/
import ScopeGraph.Proofs.Tending

namespace ScopeGraph

/-! ## 1. Accounts -/

namespace TableChange

/-- The node that a change is about. -/
def node : TableChange → Node
  | .addDeclaration _ d | .removeDeclaration _ d => .declaration d
  | .addContext _ c | .removeContext _ c => .context c

/-- The change that enters a node under a path. -/
def enter : Node → Path → TableChange
  | .declaration d, k => .addDeclaration k d
  | .context c, k => .addContext k c

/-- The change that removes a node from a path. -/
def remove : Node → Path → TableChange
  | .declaration d, k => .removeDeclaration k d
  | .context c, k => .removeContext k c

@[simp] theorem node_enter (n : Node) (k : Path) : (enter n k).node = n := by cases n <;> rfl

@[simp] theorem node_remove (n : Node) (k : Path) : (remove n k).node = n := by cases n <;> rfl

end TableChange

/-- Entries and removals of a node in turn, from the path under which it is held
    at first to the path under which it is held at last. A removal is from the
    path under which the node is held, and finds it there. -/
inductive Alternates (n : Node) : Option Path → List TableEvent → Option Path → Prop where
  | nil (place : Option Path) : Alternates n place [] place
  | enter {k : Path} {es : List TableEvent} {last : Option Path} :
      Alternates n (some k) es last → Alternates n none (⟨.enter n k, true⟩ :: es) last
  | remove {k : Path} {es : List TableEvent} {last : Option Path} :
      Alternates n none es last → Alternates n (some k) (⟨.remove n k, true⟩ :: es) last

namespace Alternates

variable {n : Node} {first middle last : Option Path} {es es' : List TableEvent}

theorem append (h : Alternates n first es middle) (h' : Alternates n middle es' last) :
    Alternates n first (es ++ es') last := by
  induction h with
  | nil => exact h'
  | enter _ ih => exact .enter (ih h')
  | remove _ ih => exact .remove (ih h')

/-- The last thing told is where the node is held, or from where it was removed. -/
theorem getLast? (h : Alternates n first es last) (hes : es ≠ []) :
    (∃ k, last = some k ∧ es.getLast? = some ⟨.enter n k, true⟩) ∨
      (∃ k, last = none ∧ es.getLast? = some ⟨.remove n k, true⟩) := by
  induction h with
  | nil => exact absurd rfl hes
  | @enter k es _ h ih =>
    cases es with
    | nil =>
      cases h
      exact .inl ⟨k, rfl, rfl⟩
    | cons e rest =>
      rw [List.getLast?_cons_cons]
      exact ih (List.cons_ne_nil _ _)
  | @remove k es _ h ih =>
    cases es with
    | nil =>
      cases h
      exact .inr ⟨k, rfl, rfl⟩
    | cons e rest =>
      rw [List.getLast?_cons_cons]
      exact ih (List.cons_ne_nil _ _)

/-- **A node is held exactly where the last entry says**, unless it was removed
    since. -/
theorem getLast?_eq_enter_iff (h : Alternates n none es last) (k : Path) :
    es.getLast? = some ⟨.enter n k, true⟩ ↔ last = some k := by
  by_cases hes : es = []
  · subst hes
    cases h
    exact ⟨nofun, nofun⟩
  · rcases h.getLast? hes with ⟨k', hlast, he⟩ | ⟨k', hlast, he⟩
    · rw [he, hlast]
      cases n <;> simp [TableChange.enter]
    · rw [he, hlast]
      cases n <;> simp [TableChange.enter, TableChange.remove]

end Alternates

/-- What is told of a node that moves from one path to another, where either may
    be missing. -/
def relocation (n : Node) (old new : Option Path) : List TableEvent :=
  (old.map fun k => ⟨.remove n k, true⟩).toList ++ (new.map fun k => ⟨.enter n k, true⟩).toList

theorem alternates_relocation (n : Node) (old new : Option Path) :
    Alternates n old (relocation n old new) new := by
  cases old <;> cases new
  · exact .nil none
  · exact .enter (.nil _)
  · exact .remove (.nil _)
  · exact .remove (.enter (.nil _))

/-- The events that tell of a node. -/
def eventsAbout (n : Node) (es : List TableEvent) : List TableEvent :=
  es.filter (·.change.node = n)

theorem eventsAbout_append (n : Node) (es es' : List TableEvent) :
    eventsAbout n (es ++ es') = eventsAbout n es ++ eventsAbout n es' := List.filter_append ..

theorem eventsAbout_relocation (m n : Node) (old new : Option Path) :
    eventsAbout m (relocation n old new) = if m = n then relocation n old new else [] := by
  unfold eventsAbout relocation
  by_cases hm : m = n
  · cases old <;> cases new <;> simp [hm]
  · cases old <;> cases new <;> simp [hm, Ne.symm hm]

namespace Graph

/-- The path under which the table holds a node, as the node says. -/
def held (g : Graph) : Node → Option Path
  | .context c => g.heldContext c
  | .declaration d => g.heldDeclaration d

/-- Whether a node is there. -/
def hasNode (g : Graph) : Node → Bool
  | .context c => g.hasContext c
  | .declaration d => g.hasDeclaration d

variable {g g' : Graph} {n : Node}

theorem held_of_gone (h : g.hasNode n = false) : g.held n = none := by
  cases n with
  | context c =>
    have hnone : g.context? c = none := Option.not_isSome_iff_eq_none.mp (Bool.eq_false_iff.mp h)
    simp [held, heldContext, hnone]
  | declaration d =>
    have hnone : g.declaration? d = none :=
      Option.not_isSome_iff_eq_none.mp (Bool.eq_false_iff.mp h)
    simp [held, heldDeclaration, hnone]

theorem SameEntries.held (h : SameEntries g g') (n : Node) : g'.held n = g.held n := by
  cases n with
  | context c => exact congrFun h.contexts c
  | declaration d => exact congrFun h.declarations d

theorem SameNodes.hasNode (h : SameNodes g g') (n : Node) : g'.hasNode n = g.hasNode n := by
  cases n with
  | context c => exact h.contexts.isSome_get? c
  | declaration d => exact h.declarations.isSome_get? d

/-- A node that says where it is held can be removed from there. -/
theorem Entered.admits_remove (h : g.Entered) {k : Path} (hk : g.held n = some k) :
    g.table.admits (.remove n k) = true := by
  cases n with
  | context c => exact decide_eq_true ((h.contexts.mem k c).mpr hk)
  | declaration d => exact decide_eq_true ((h.declarations.mem k d).mpr hk)

end Graph

namespace Workspace

open ScopeGraph.Graph

/-- What the journal tells of a node. -/
def account (w : Workspace) (n : Node) : List TableEvent := eventsAbout n w.events

variable {w w' : Workspace}

theorem account_of_relocation {n : Node} {old new : Option Path}
    (h : w'.events = w.events ++ relocation n old new) (m : Node) :
    w'.account m = w.account m ++ if m = n then relocation n old new else [] := by
  unfold account
  rw [h, eventsAbout_append, eventsAbout_relocation]

/-- A node that is moved from the path where the table holds it is told so. -/
theorem events_changeTableBy {n : Node} {old : Option Path} (new : Option Path)
    (hold : ∀ k, old = some k → w.graph.table.admits (.remove n k) = true) :
    (w.changeTableBy (keyMoves (.remove n) (.enter n) old new)).events =
      w.events ++ relocation n old new := by
  have henter : ∀ (t : SymbolTable) k, t.admits (.enter n k) = true := by
    intro t k
    cases n <;> rfl
  cases old with
  | none => cases new <;> simp [changeTableBy, keyMoves, changeTable, relocation, henter]
  | some k =>
    have hk := hold k rfl
    cases new <;> simp [changeTableBy, keyMoves, changeTable, relocation, henter, hk]

/-! ## 2. What a step writes -/

/-- What is added to the account of a node takes it from the path that the node
    said before to the path that it says after. -/
def Writes (n : Node) (w w' : Workspace) : Prop :=
  ∃ es, w'.account n = w.account n ++ es ∧ Alternates n (w.graph.held n) es (w'.graph.held n)

theorem Writes.of_same {n : Node} (haccount : w'.account n = w.account n)
    (hheld : w'.graph.held n = w.graph.held n) : Writes n w w' := by
  refine ⟨[], ?_, ?_⟩
  · rw [haccount, List.append_nil]
  · rw [hheld]
    exact .nil _

theorem Writes.trans {n : Node} {w₁ w₂ w₃ : Workspace} (h₁ : Writes n w₁ w₂) (h₂ : Writes n w₂ w₃) :
    Writes n w₁ w₃ := by
  obtain ⟨es₁, haccount₁, halternates₁⟩ := h₁
  obtain ⟨es₂, haccount₂, halternates₂⟩ := h₂
  refine ⟨es₁ ++ es₂, ?_, halternates₁.append halternates₂⟩
  rw [haccount₂, haccount₁, List.append_assoc]

/-- **The node in hand moves in the table, and no other.** -/
theorem Writes.of_relocation {n : Node} {new : Option Path}
    (hheld : ∀ m, w'.graph.held m = if m = n then new else w.graph.held m)
    (hevents : w'.events = w.events ++ relocation n (w.graph.held n) new) (m : Node) :
    Writes m w w' := by
  have haccount := account_of_relocation hevents m
  by_cases hm : m = n
  · rw [if_pos hm] at haccount
    refine ⟨_, haccount, ?_⟩
    rw [hheld, if_pos hm, hm]
    exact alternates_relocation n _ new
  · rw [if_neg hm, List.append_nil] at haccount
    exact .of_same haccount ((hheld m).trans (if_neg hm))

/-- The view of all nodes, of what they say about the table, and of the table. -/
def Graph.View.filed := View.whole Context.key Declaration.key

/-- **No node comes or goes, and those that are there may move in the table.** Of
    what is not there the journal tells nothing new. -/
structure Refiles (w w' : Workspace) : Prop where
  nodes : SameNodes w.graph w'.graph
  entered : w.graph.Entered → w'.graph.Entered
  writes : w.graph.Entered → ∀ n, Writes n w w'
  spares : w.graph.Entered → ∀ n, w.graph.hasNode n = false → w'.account n = w.account n

namespace Refiles

/-- The table is not changed. -/
theorem of_same (hnodes : SameNodes w.graph w'.graph) (hentries : SameEntries w.graph w'.graph)
    (hevents : w'.events = w.events) : Refiles w w' := by
  have haccount : ∀ n, w'.account n = w.account n := fun n => congrArg (eventsAbout n) hevents
  exact ⟨hnodes, hentries.entered, fun _ n => .of_same (haccount n) (hentries.held n),
    fun _ n _ => haccount n⟩

theorem refl (w : Workspace) : Refiles w w := of_same (.refl _) (.refl _) rfl

theorem trans {w₁ w₂ w₃ : Workspace} (h₁ : Refiles w₁ w₂) (h₂ : Refiles w₂ w₃) :
    Refiles w₁ w₃ where
  nodes := h₁.nodes.trans h₂.nodes
  entered h := h₂.entered (h₁.entered h)
  writes h n := (h₁.writes h n).trans (h₂.writes (h₁.entered h) n)
  spares h n hn := by
    have hn₂ := (h₁.nodes.hasNode n).trans hn
    rw [h₂.spares (h₁.entered h) n hn₂, h₁.spares h n hn]

instance : IsPreorder Workspace Refiles where
  refl := refl
  trans _ _ _ := trans

theorem onGraph {f : Graph → Graph} (h : Graph.View.filed.Same w.graph (f w.graph)) :
    Refiles w (w.onGraph f) :=
  of_same (h.of_whole (fun _ => ()) (fun _ => ()) (fun _ => rfl) fun _ => rfl)
    (h.of_whole id id (fun _ => rfl) fun _ => rfl) rfl

/-- One node that is there moves. -/
theorem of_relocation {n : Node} {new : Option Path} (hlive : w.graph.hasNode n = true)
    (hnodes : SameNodes w.graph w'.graph) (hentered : w.graph.Entered → w'.graph.Entered)
    (hheld : ∀ m, w'.graph.held m = if m = n then new else w.graph.held m)
    (hevents : w.graph.Entered → w'.events = w.events ++ relocation n (w.graph.held n) new) :
    Refiles w w' where
  nodes := hnodes
  entered := hentered
  writes h := .of_relocation hheld (hevents h)
  spares h m hm := by
    have hne : m ≠ n := by
      intro e
      rw [e, hlive] at hm
      cases hm
    rw [account_of_relocation (hevents h) m, if_neg hne, List.append_nil]

end Refiles

theorem SameRegistry.refiles (h : SameRegistry w w') : Refiles w w' :=
  .of_same h.graph.nodes h.graph.entries h.events

theorem RekeysDeclaration.held {g g' : Graph} {d : DeclId} {key : Option Path}
    (h : RekeysDeclaration g g' d key) (n : Node) :
    g'.held n = if n = .declaration d then key else g.held n := by
  cases n with
  | context c => exact (congrFun h.contexts c).trans (if_neg nofun).symm
  | declaration x =>
    refine (h.declarations x).trans ?_
    by_cases hx : x = d <;> simp [hx, Graph.held]

theorem RekeysContext.held {g g' : Graph} {c : ContextId} {key : Option Path}
    (h : RekeysContext g g' c key) (n : Node) :
    g'.held n = if n = .context c then key else g.held n := by
  cases n with
  | declaration d => exact (congrFun h.declarations d).trans (if_neg nofun).symm
  | context x =>
    refine (h.contexts x).trans ?_
    by_cases hx : x = c <;> simp [hx, Graph.held]

theorem held_of_declaration {d : DeclId} {data : Declaration}
    (hd : w.graph.declaration? d = some data) : w.graph.held (.declaration d) = data.key := by
  simp [Graph.held, heldDeclaration, hd]

theorem held_of_context {c : ContextId} {data : Context} (hc : w.graph.context? c = some data) :
    w.graph.held (.context c) = data.key := by
  simp [Graph.held, heldContext, hc]

theorem refiles_syncDeclaration (w : Workspace) (d : DeclId) : Refiles w (w.syncDeclaration d) := by
  have hrekeys := w.syncsDeclaration d
  -- opened together with the goal, so that both speak of the same branch
  revert hrekeys
  unfold syncDeclaration
  cases hd : w.graph.declaration? d with
  | none => exact fun _ => .refl w
  | some data =>
    dsimp only
    split
    · exact fun _ => .refl w
    · intro hrekeys
      have hheld := held_of_declaration hd
      refine .of_relocation (n := .declaration d) ?_ ?_ hrekeys.entered hrekeys.held fun hw => ?_
      · exact congrArg Option.isSome hd
      · rw [graph_changeTableBy]
        have hnodes : SameNodes w.graph (w.graph.modifyDeclaration d
            ({ · with key := w.graph.declarationKey? d })) :=
          Graph.View.Same.modifyDeclaration w.graph d fun _ => rfl
        exact hnodes
      · rw [hheld]
        exact events_changeTableBy (n := .declaration d) _ fun k hk =>
          hw.admits_remove (hheld.trans hk)

theorem refiles_syncContextKey (w : Workspace) (c : ContextId) : Refiles w (w.syncContextKey c) := by
  have hrekeys := w.syncsContext c
  revert hrekeys
  unfold syncContextKey
  cases hc : w.graph.context? c with
  | none => exact fun _ => .refl w
  | some data =>
    dsimp only
    split
    · exact fun _ => .refl w
    · intro hrekeys
      have hheld := held_of_context hc
      refine .of_relocation (n := .context c) ?_ ?_ hrekeys.entered hrekeys.held fun hw => ?_
      · exact congrArg Option.isSome hc
      · rw [graph_changeTableBy]
        have hnodes : SameNodes w.graph (w.graph.modifyContext c
            ({ · with key := w.graph.contextKey? c })) :=
          Graph.View.Same.modifyContext w.graph c fun _ => rfl
        exact hnodes
      · rw [hheld]
        exact events_changeTableBy (n := .context c) _ fun k hk => hw.admits_remove (hheld.trans hk)

theorem refiles_syncContext (w : Workspace) (c : ContextId) : Refiles w (w.syncContext c) :=
  (refiles_syncContextKey w c).trans (related_foldl refiles_syncDeclaration _ _)

theorem refiles_syncSubtree (w : Workspace) (c : ContextId) : Refiles w (w.syncSubtree c) :=
  related_foldl refiles_syncContext _ w

theorem refiles_registerSubtree (w : Workspace) (c : ContextId) (registered : Bool) :
    Refiles w (w.registerSubtree c registered) := by
  have hmark : Refiles w (w.markSubtree c registered) :=
    .onGraph (.foldl_mark (fun _ _ => rfl) _ registered _)
  exact hmark.trans (refiles_syncSubtree _ c)

theorem refiles_moveDeclaration (w : Workspace) (c : ContextId) (d : DeclId)
    (previous : Option ContextId) : Refiles w (w.moveDeclaration c d previous) := by
  unfold moveDeclaration
  refine .trans (.trans (.trans ?_ (.onGraph (.attach (fun _ _ => rfl) _ c d)))
    (.onGraph (.modifyDeclaration _ d fun _ => ?_))) (refiles_syncDeclaration _ d)
  · exact related_whenSome fun p => .onGraph (.detach (fun _ _ => rfl) _ p d)
  · rfl

theorem refiles_dropDeclaration (w : Workspace) (c : ContextId) (d : DeclId) :
    Refiles w (w.dropDeclaration c d) := by
  unfold dropDeclaration
  refine .trans (.trans (.onGraph (.detach (fun _ _ => rfl) _ c d))
    (.onGraph (.modifyDeclaration _ d fun _ => ?_))) (refiles_syncDeclaration _ d)
  rfl

theorem refiles_renameDeclaration (w : Workspace) (d : DeclId) (data : Declaration) (name : Ident) :
    Refiles w (w.renameDeclaration d data name) := by
  have hindex : ∀ (data : Context) (l : Locals), l.ordered = data.locals.ordered →
      Graph.View.filed.context { data with locals := l } = Graph.View.filed.context data :=
    fun _ _ _ => rfl
  have hnames : Refiles w (w.whenSome data.context fun c w => w.onGraph fun g =>
      (g.recallNames c [(data.name, d)]).spreadNames c [(name, d)]) := by
    refine related_whenSome fun c => .onGraph ?_
    exact (Graph.View.Same.recallNames hindex w.graph c _).trans
      (Graph.View.Same.spreadNames hindex _ c _)
  refine .trans (hnames.trans (.onGraph (.modifyDeclaration _ d fun _ => ?_)))
    (refiles_syncDeclaration _ d)
  rfl

theorem refiles_unlinkChild (w : Workspace) (p c : ContextId) :
    Refiles w (w.onGraph (·.unlinkChild p c)) :=
  .onGraph (.unlinkChild (fun _ _ _ => rfl) (fun _ _ => rfl) (fun _ _ => rfl) _ p c)

theorem refiles_linkChild (w : Workspace) (p c : ContextId) :
    Refiles w (w.onGraph (·.linkChild p c)) :=
  .onGraph (.linkChild (fun _ _ _ => rfl) ⟨fun _ _ => rfl, fun _ _ => rfl⟩ _ p c)

theorem refiles_adopt (w : Workspace) (p c : ContextId) (parent child : Context) :
    Refiles w (w.adopt p c parent child) := by
  unfold adopt
  refine .trans (.trans (.trans ?_ (related_whenSome fun q => refiles_unlinkChild _ q c))
    (refiles_linkChild _ p c)) (refiles_registerSubtree _ c _)
  split
  · exact .refl w
  · exact (Beside.warn w _).sameRegistry.refiles

theorem refiles_abandon (w : Workspace) (p c : ContextId) : Refiles w (w.abandon p c) := by
  unfold abandon
  dsimp only
  split
  · exact (refiles_unlinkChild w p c).trans (refiles_registerSubtree _ c false)
  · exact refiles_unlinkChild w p c

end Workspace

/-! ## 3. Edits in which no node comes or goes -/

namespace Edit

open Workspace ScopeGraph.Graph

theorem refiles_addDeclaration (c : ContextId) (d : DeclId) : Follows Refiles (addDeclaration c d) :=
  fun w => after_addDeclaration (.refl w) fun _ data _ _ _ =>
    refiles_moveDeclaration w c d data.context

theorem refiles_removeDeclaration (c : ContextId) (d : DeclId) :
    Follows Refiles (removeDeclaration c d) :=
  fun w => after_removeDeclaration (.refl w) fun _ _ _ _ _ => refiles_dropDeclaration w c d

theorem refiles_setDeclarationContext (d : DeclId) (c : Option ContextId) :
    Follows Refiles (setDeclarationContext d c) := by
  cases c with
  | some c => exact (refiles_addDeclaration c d).bind fun _ => follows_pure ()
  | none =>
    refine (follows_needDeclaration d).bind fun data => ?_
    split
    · exact (refiles_removeDeclaration _ d).bind fun _ => follows_pure ()
    · exact follows_pure ()

theorem refiles_rename (d : DeclId) (name : Ident) : Follows Refiles (rename d name) :=
  fun w => after_rename (.refl w) fun data _ _ => refiles_renameDeclaration w d data name

theorem refiles_clearDeclarations (c : ContextId) : Follows Refiles (clearDeclarations c) := by
  refine follows_graph.bind fun g => Follows.bind (follows_forEach (fun d => ?_) _) fun _ =>
    follows_pure _
  exact (refiles_removeDeclaration c d).bind fun _ => follows_pure ()

theorem refiles_addChild (p c : ContextId) : Follows Refiles (addChild p c) :=
  fun w => after_addChild (.refl w) (Beside.warn w _).sameRegistry.refiles
    fun parent child _ _ _ _ _ => refiles_adopt w p c parent child

theorem refiles_removeChild (p c : ContextId) : Follows Refiles (removeChild p c) :=
  fun w => after_removeChild (.refl w) fun _ _ _ => refiles_abandon w p c

theorem refiles_setKind (c : ContextId) (kind : ContextKind) : Follows Refiles (setKind c kind) := by
  intro w
  refine after_setKind (.refl w) fun _ _ _ => .trans ?_ (refiles_syncContext _ c)
  exact .onGraph (.modifyContext _ c fun _ => rfl)

theorem refiles_setScopeName (c : ContextId) (name : QualName) :
    Follows Refiles (setScopeName c name) := by
  intro w
  have hset : Refiles w (w.onGraph (·.modifyContext c ({ · with scopeName := name }))) :=
    .onGraph (.modifyContext _ c fun _ => rfl)
  exact after_setScopeName (.refl w) (fun _ _ _ => hset) fun _ _ _ =>
    hset.trans (refiles_syncSubtree _ c)

theorem refiles_registerTop (t : TopId) (registered : Bool) : Follows Refiles
    (needFile t >>= fun _ => update (·.registerSubtree t.context registered)) :=
  (follows_needFile t).bind fun _ =>
    follows_update fun w => refiles_registerSubtree w t.context registered

end Edit

/-! ## 4. Teardowns -/

namespace Workspace

open ScopeGraph.Graph

variable {w w' : Workspace} {c : ContextId} {d : DeclId}

/-- Nothing new is told of a node and it is held where it was, or it is removed from
    where it was held. -/
def Strikes (n : Node) (w w' : Workspace) : Prop :=
  (w'.account n = w.account n ∧ w'.graph.held n = w.graph.held n) ∨
    (w'.account n = w.account n ++ relocation n (w.graph.held n) none ∧ w'.graph.held n = none)

namespace Strikes

variable {n : Node}

theorem trans {w₁ w₂ w₃ : Workspace} (h₁ : Strikes n w₁ w₂) (h₂ : Strikes n w₂ w₃) :
    Strikes n w₁ w₃ := by
  rcases h₁ with ⟨haccount, hheld⟩ | ⟨haccount, hheld⟩
  · unfold Strikes
    rw [← haccount, ← hheld]
    exact h₂
  · right
    rcases h₂ with ⟨haccount', hheld'⟩ | ⟨haccount', hheld'⟩
    · exact ⟨haccount'.trans haccount, hheld'.trans hheld⟩
    · -- what is removed already is not told of again
      rw [hheld] at haccount'
      exact ⟨haccount'.trans ((List.append_nil _).trans haccount), hheld'⟩

theorem writes (h : Strikes n w w') : Writes n w w' := by
  rcases h with ⟨haccount, hheld⟩ | ⟨haccount, hheld⟩
  · exact .of_same haccount hheld
  · refine ⟨_, haccount, ?_⟩
    rw [hheld]
    exact alternates_relocation n _ none

/-- A node that is held nowhere in the end was removed from where it was held. -/
theorem account_of_unheld (h : Strikes n w w') (hheld' : w'.graph.held n = none) :
    w'.account n = w.account n ++ relocation n (w.graph.held n) none := by
  rcases h with ⟨haccount, hheld⟩ | ⟨haccount, _⟩
  · rw [← hheld, hheld', haccount]
    exact (List.append_nil _).symm
  · exact haccount

theorem of_relocation {m : Node}
    (hheld : ∀ n, w'.graph.held n = if n = m then none else w.graph.held n)
    (hevents : w'.events = w.events ++ relocation m (w.graph.held m) none) (n : Node) :
    Strikes n w w' := by
  have haccount := account_of_relocation hevents n
  by_cases hn : n = m
  · rw [if_pos hn, ← hn] at haccount
    exact .inr ⟨haccount, (hheld n).trans (if_pos hn)⟩
  · rw [if_neg hn, List.append_nil] at haccount
    exact .inl ⟨haccount, (hheld n).trans (if_neg hn)⟩

end Strikes

/-- Nodes are removed from the table or left as they are, and declarations may
    have gone. -/
structure Cleared (w w' : Workspace) : Prop where
  consistent : w'.graph.Consistent
  strikes : ∀ n, Strikes n w w'
  onlyFrees : Store.OnlyFrees w.graph.declarations w'.graph.declarations

/-- **A teardown only removes.** -/
def Clears (w w' : Workspace) : Prop := w.graph.Consistent → Cleared w w'

namespace Clears

theorem refl (w : Workspace) : Clears w w :=
  fun hw => ⟨hw, fun _ => .inl ⟨rfl, rfl⟩, .refl _⟩

theorem trans {w₁ w₂ w₃ : Workspace} (h₁ : Clears w₁ w₂) (h₂ : Clears w₂ w₃) : Clears w₁ w₃ := by
  intro hw
  have hc₁ := h₁ hw
  have hc₂ := h₂ hc₁.consistent
  exact ⟨hc₂.consistent, fun n => (hc₁.strikes n).trans (hc₂.strikes n),
    hc₁.onlyFrees.trans hc₂.onlyFrees⟩

instance : IsPreorder Workspace Clears where
  refl := refl
  trans _ _ _ := trans

end Clears

theorem Beside.clears (h : Beside w w') : Clears w w' := fun hw =>
  ⟨h.graph.sameRegistry.consistent hw,
    fun n => .inl ⟨congrArg (eventsAbout n) h.events, h.graph.sameRegistry.entries.held n⟩,
    h.graph.sameRegistry.nodes.declarations.onlyFrees⟩

theorem held_sever (w : Workspace) (c : ContextId) (data : Context) (n : Node) :
    (w.sever c data).graph.held n = if n = .context c then none else w.graph.held n := by
  cases n with
  | context x =>
    simp only [Graph.held, heldContext, context?_sever, Node.context.injEq]
    split
    · cases w.graph.context? x <;> rfl
    · rfl
  | declaration x =>
    rw [if_neg nofun]
    unfold sever
    cases data.owner with
    | none => cases data.key <;> rfl
    | some e =>
      have hentries : SameEntries w.graph (w.graph.clearInternal e c) :=
        Graph.View.Same.clearInternal (fun _ _ => rfl) w.graph e c
      cases data.key <;> exact congrFun hentries.declarations x

theorem events_sever {data : Context} (hw : w.graph.Entered) (hc : w.graph.context? c = some data) :
    (w.sever c data).events = w.events ++ relocation (.context c) data.key none := by
  have hheld := held_of_context hc
  unfold sever
  cases hk : data.key with
  | none => cases data.owner <;> simp [relocation, whenSome, onGraph]
  | some k =>
    have hadmits : w.graph.table.admits (.removeContext k c) = true :=
      hw.admits_remove (n := .context c) (hheld.trans hk)
    -- neither the owner nor the context itself touches the table before the removal
    cases data.owner <;> exact congrArg (fun b => w.events ++ [⟨.removeContext k c, b⟩]) hadmits

theorem clears_sever {data : Context} (hc : w.graph.context? c = some data) :
    Clears w (w.sever c data) := by
  intro hw
  refine ⟨(severs hw hc).1, .of_relocation (held_sever w c data) ?_, ?_⟩
  · rw [held_of_context hc]
    exact events_sever hw.entered hc
  · unfold sever
    cases data.owner with
    | none => cases data.key <;> exact .refl _
    | some e => cases data.key <;> exact .modify _ e _

theorem events_discard {data : Declaration} (hw : w.graph.Entered)
    (hd : w.graph.declaration? d = some data) :
    (w.discard d data).events = w.events ++ relocation (.declaration d) data.key none := by
  have hheld := held_of_declaration hd
  have htable : ∀ p, (w.graph.detach p d).table = w.graph.table :=
    fun p => (SameEntries.detach w.graph p d).table
  unfold discard
  generalize data.context.bind w.graph.topOf? = top
  cases hk : data.key with
  | none => cases top <;> cases data.internal <;> cases data.context <;>
      simp [relocation, whenSome, onGraph]
  | some k =>
    have hadmits : w.graph.table.admits (.removeDeclaration k d) = true :=
      hw.admits_remove (n := .declaration d) (hheld.trans hk)
    cases top <;> cases data.internal <;> cases data.context <;>
      simp [relocation, whenSome, onGraph, changeTable, TableChange.remove, modifyDeclaration,
        htable, hadmits]

theorem clears_discard {data : Declaration} (hd : w.graph.declaration? d = some data) :
    Clears w (w.discard d data) := by
  intro hw
  have hdiscards := discards hd
  refine ⟨hdiscards.consistent hw (outline_declaration.mpr ⟨data, hd, rfl⟩) rfl,
    .of_relocation (m := .declaration d) (fun n => ?_) ?_, ?_⟩
  · cases n with
    | context x => exact (congrFun hdiscards.contexts x).trans (if_neg nofun).symm
    | declaration x =>
      refine (hdiscards.declarations x).trans ?_
      by_cases hx : x = d <;> simp [hx, Graph.held]
  · rw [held_of_declaration hd]
    exact events_discard hw.entered hd
  · rw [declarations_discard]
    exact (Store.OnlyFrees.modify _ d _).trans (.erase _ d)

theorem clears_release {data : Context} (hbare : w.Bare c data) : Clears w (w.release c data) := by
  intro hw
  have hevents : (w.release c data).events = w.events := by
    unfold release
    cases data.parent <;> cases data.anonymous <;> cases data.isTop <;> rfl
  refine ⟨(released hw hbare).1, fun n => .inl ⟨congrArg (eventsAbout n) hevents,
    (sameEntries_release hw hbare).held n⟩, ?_⟩
  rw [graph_release]
  unfold loosen
  cases data.parent with
  | none => exact .refl _
  | some p =>
    cases data.anonymous with
    | true => exact .refl _
    | false => exact (SameNodes.unlinkChild w.graph p c).declarations.onlyFrees

theorem TeardownStep.clears {S : ContextId → Prop} (h : TeardownStep S w w') : Clears w w' := by
  cases h with
  | unimport => exact (Beside.unimport w _ _ _).clears
  | clearUses => exact (Beside.clearUses w _).clears
  | sever _ hc => exact clears_sever hc
  | discard _ hd _ => exact clears_discard hd
  | release _ hbare _ => exact clears_release hbare

theorem TeardownSteps.clears {S : ContextId → Prop} (h : TeardownSteps S w w') : Clears w w' := by
  induction h with
  | refl => exact .refl w
  | tail _ hstep ih => exact ih.trans hstep.clears

end Workspace

namespace Edit

open Workspace

theorem clears_deleteDeclaration (d : DeclId) : Follows Clears (deleteDeclaration d) :=
  fun w => after_deleteDeclaration (.refl w) fun _ hd => clears_discard hd

theorem clears_deleteContext (c : ContextId) : Follows Clears (deleteContext c) := by
  intro w hw
  refine after_deleteContext hw (fun _ => Clears.refl w hw) fun w' data hteardown hbare => ?_
  exact hteardown.clears.trans (clears_release hbare) hw

theorem clears_clean (c : ContextId) (keep : List Node) : Follows Clears (clean c keep) :=
  follows_clean clears_deleteDeclaration clears_deleteContext c keep

end Edit

/-! ## 5. Every change -/

namespace Workspace

open ScopeGraph.Graph

variable {w w₁ w' : Workspace}

/-- **What a call writes.** Of a node that is not there after the call, it tells no
    more than that the node was removed, if it was held. -/
structure Logs (w w' : Workspace) : Prop where
  writes : ∀ n, Writes n w w'
  gone : ∀ n, w'.graph.hasNode n = false →
    w'.account n = w.account n ++ relocation n (w.graph.held n) none
  declarations : Store.Evolves w.graph.declarations w'.graph.declarations

theorem Cleared.logs (h : Cleared w w') : Logs w w' where
  writes n := (h.strikes n).writes
  gone n hn := (h.strikes n).account_of_unheld (held_of_gone hn)
  declarations := h.onlyFrees.evolves

/-- A node may come first, as long as the table does not notice it. -/
theorem Refiles.logs (h : Refiles w₁ w') (hw : w.graph.Entered)
    (hentries : SameEntries w.graph w₁.graph) (hevents : w₁.events = w.events)
    (hmade : Store.Evolves w.graph.declarations w₁.graph.declarations) : Logs w w' := by
  have hw₁ := hentries.entered hw
  have haccount : ∀ n, w₁.account n = w.account n := fun n => congrArg (eventsAbout n) hevents
  refine ⟨fun n => ?_, fun n hn => ?_, hmade.of_map_eq h.nodes.declarations⟩
  · exact (Writes.of_same (haccount n) (hentries.held n)).trans (h.writes hw₁ n)
  · -- a node that is not there now was not there before either, so it was held nowhere
    have hn₁ : w₁.graph.hasNode n = false := (h.nodes.hasNode n).symm.trans hn
    rw [h.spares hw₁ n hn₁, haccount, ← hentries.held, held_of_gone hn₁]
    exact (List.append_nil _).symm

theorem Refiles.logs_self (h : Refiles w w') (hw : w.graph.Entered) : Logs w w' :=
  h.logs hw (.refl _) rfl (Store.OnlyFrees.refl _).evolves

theorem logs_newContext {made : Context} (hw : w.graph.Entered) (htidy : w.graph.contexts.Tidy)
    (hkey : made.key = none) (h : Refiles ((Edit.newContext made).after w) w') : Logs w w' :=
  h.logs hw (sameEntries_insertContext made htidy hkey) rfl (Store.OnlyFrees.refl _).evolves

end Workspace

namespace Edit

open Workspace ScopeGraph.Graph

variable {w : Workspace} (hw : w.graph.Entered)

include hw

theorem logs_createContext (htidy : w.graph.contexts.Tidy) (p : ContextId) (range : Span) :
    Logs w ((createContext p range).after w) := by
  unfold createContext after
  rw [needContext_bind]
  cases w.graph.context? p with
  | none => exact (Refiles.refl w).logs_self hw
  | some parent =>
    let n := w.graph.nextContext { range := range }
    have hnest : Follows Refiles (addChild p n >>= fun _ => pure n) :=
      (refiles_addChild p n).bind fun _ => follows_pure n
    exact logs_newContext hw htidy rfl (hnest _)

theorem logs_createAnonymous (htidy : w.graph.contexts.Tidy) (p : ContextId) (range : Span) :
    Logs w ((createAnonymous p range).after w) := by
  unfold createAnonymous after
  rw [needContext_bind]
  cases w.graph.context? p with
  | none => exact (Refiles.refl w).logs_self hw
  | some parent => exact logs_newContext hw htidy rfl (.refl _)

theorem logs_declare (c : ContextId) (name : Ident) (range : Span) (kind : DeclKind) :
    Logs w ((declare c name range kind).after w) := by
  unfold declare after
  rw [needContext_bind]
  cases w.graph.context? c with
  | none => exact (Refiles.refl w).logs_self hw
  | some holder =>
    let made : Declaration := { name := name, range := range, kind := kind }
    let n := w.graph.nextDeclaration made
    have hplace : Follows Refiles (addDeclaration c n >>= fun _ => pure n) :=
      (refiles_addDeclaration c n).bind fun _ => follows_pure n
    exact (hplace _).logs hw (sameEntries_insertDeclaration made hw.tidy rfl) rfl
      (Store.evolves_insert hw.tidy made)

end Edit

/-- **Every change keeps the journal in turn.** -/
theorem Change.logs {w : Workspace} (hw : w.graph.Consistent) (htidy : w.graph.contexts.Tidy)
    (e : Change) : w.Logs (e.apply w) := by
  have hrefiles : w.Refiles (e.apply w) → w.Logs (e.apply w) := fun h => h.logs_self hw.entered
  by_cases hbeside : e.isBeside = true
  · exact hrefiles (beside hbeside w).sameRegistry.refiles
  cases e with
  | createTop file range => exact Workspace.logs_newContext hw.entered htidy rfl (.refl _)
  | createContext p range => exact Edit.logs_createContext hw.entered htidy p range
  | createAnonymous p range => exact Edit.logs_createAnonymous hw.entered htidy p range
  | addChild p c => exact hrefiles (Edit.refiles_addChild p c w)
  | removeChild p c => exact hrefiles (Edit.refiles_removeChild p c w)
  | setKind c kind => exact hrefiles (Edit.refiles_setKind c kind w)
  | setScopeName c name => exact hrefiles (Edit.refiles_setScopeName c name w)
  | setPropagates c on => exact hrefiles (Edit.sameRegistry_setPropagates c on w).refiles
  | declare c name range kind => exact Edit.logs_declare hw.entered c name range kind
  | addDeclaration c d => exact hrefiles (Edit.refiles_addDeclaration c d w)
  | removeDeclaration c d => exact hrefiles (Edit.refiles_removeDeclaration c d w)
  | setDeclarationContext d c => exact hrefiles (Edit.refiles_setDeclarationContext d c w)
  | rename d name => exact hrefiles (Edit.refiles_rename d name w)
  | setRange d range => exact hrefiles (Edit.sameRegistry_setRange d range w).refiles
  | register t => exact hrefiles (Edit.refiles_registerTop t true w)
  | unregister t => exact hrefiles (Edit.refiles_registerTop t false w)
  | deleteDeclaration d => exact (Edit.clears_deleteDeclaration d w hw).logs
  | clearDeclarations c => exact hrefiles (Edit.refiles_clearDeclarations c w)
  | deleteContext c => exact (Edit.clears_deleteContext c w hw).logs
  | clean c keep => exact (Edit.clears_clean c keep w hw).logs
  | _ => exact absurd rfl hbeside

theorem Call.logs {w : Workspace} (hw : w.Faithful) (hconsistent : w.graph.Consistent)
    (call : Call) : w.Logs (call.apply w) := by
  cases call with
  | change e => exact e.logs hconsistent hw.linked.tidy
  | question q =>
    have hgraph : (q.apply w).graph = w.graph :=
      (q.keeps (fun s t => Graph.keeps_hopTowards s t) hw.coherent).2
    have hevents : (q.apply w).events = w.events := by cases q <;> rfl
    have hquiet : w.Refiles (q.apply w) := by
      refine .of_same ?_ ?_ hevents <;> rw [hgraph]
      · exact .refl _
      · exact .refl _
    exact hquiet.logs_self hconsistent.entered

/-! ## 6. Sequences of calls -/

namespace Graph

/-- A node that was given out, whether or not it is still there. -/
def Issued (g : Graph) : Node → Prop
  | .context c => g.contexts.Issued c
  | .declaration d => g.declarations.Issued d

theorem issued_of_hasNode {g : Graph} {n : Node} (h : g.hasNode n = true) : g.Issued n := by
  cases n with
  | context c =>
    obtain ⟨data, hc⟩ := Option.isSome_iff_exists.mp h
    exact Store.issued_of_get? hc
  | declaration d =>
    obtain ⟨data, hd⟩ := Option.isSome_iff_exists.mp h
    exact Store.issued_of_get? hd

end Graph

namespace Workspace

open ScopeGraph.Graph

/-- All is in order, and no slot runs out of generations in the calls to come. -/
structure Ready (w : Workspace) (calls : List Call) : Prop where
  faithful : w.Faithful
  kept : ∃ s, w.Kept s
  contexts : w.Lasts calls
  declarations : ∀ i, (w.graph.declarations.generationAt i).toNat + w.declarationFrees i calls <
    UInt32.size

/-- A call writes the journal in turn, and no handle is given out again. -/
structure Advances (w w' : Workspace) : Prop where
  logs : Logs w w'
  issued : ∀ n, w.graph.Issued n → w'.graph.Issued n
  stays_gone : ∀ n, w.graph.Issued n → w.graph.hasNode n = false → w'.graph.hasNode n = false

variable {w : Workspace} {call : Call} {calls before rest : List Call} {n : Node}

theorem ready_empty {limits : Limits} (hcontexts : (empty limits).FewFrees calls)
    (hdeclarations : (empty limits).FewDeclarationFrees calls) : (empty limits).Ready calls := by
  refine ⟨faithful_empty limits, ⟨0, kept_empty limits⟩, hcontexts.lasts, fun i => ?_⟩
  have hzero : ((empty limits).graph.declarations.generationAt i).toNat = 0 := rfl
  rw [hzero, Nat.zero_add]
  exact hdeclarations i

/-- **One call**: all stays in order, and the journal is written in turn. -/
theorem Ready.step (h : w.Ready (call :: rest)) :
    (call.apply w).Ready rest ∧ Advances w (call.apply w) := by
  obtain ⟨s, hs⟩ := h.kept
  have hlogs := call.logs h.faithful hs.kempt.consistent
  have hcontexts := call.evolves h.faithful
  obtain ⟨hages, hlasts⟩ := h.contexts.step hcontexts
  obtain ⟨hages', hlasts'⟩ := hlogs.declarations.lasts h.declarations
  obtain ⟨s', hs', _⟩ := call.kept h.faithful hages hs
  refine ⟨⟨call.faithful h.faithful hages, ⟨s', hs'⟩, hlasts, hlasts'⟩, hlogs, fun n hn => ?_,
    fun n hn hgone => ?_⟩
  · cases n with
    | context c => exact hcontexts.issued hages hn
    | declaration d => exact hlogs.declarations.issued hages' hn
  · cases n with
    | context c => exact hcontexts.stays_gone hages hn hgone
    | declaration d => exact hlogs.declarations.stays_gone hages' hn hgone

theorem Ready.run (h : w.Ready (before ++ rest)) : (w.run before).Ready rest := by
  induction before generalizing w with
  | nil => exact h
  | cons call before ih => exact ih h.step.1

theorem run_append (w : Workspace) (before rest : List Call) :
    w.run (before ++ rest) = (w.run before).run rest := by
  induction before generalizing w with
  | nil => rfl
  | cons call before ih => exact ih (call.apply w)

/-- **The account of a node goes on in turn.** -/
theorem Ready.writes (h : w.Ready calls) (n : Node) : Writes n w (w.run calls) := by
  induction calls generalizing w with
  | nil => exact .of_same rfl rfl
  | cons call rest ih =>
    obtain ⟨hready, hadvances⟩ := h.step
    exact (hadvances.logs.writes n).trans (ih hready)

/-- **Of a node that has gone nothing is told any more.** -/
theorem Ready.account_of_gone (h : w.Ready calls) (hissued : w.graph.Issued n)
    (hgone : w.graph.hasNode n = false) : (w.run calls).account n = w.account n := by
  induction calls generalizing w with
  | nil => rfl
  | cons call rest ih =>
    obtain ⟨hready, hadvances⟩ := h.step
    -- its slot may be filled again, but under a later generation
    have hgone' := hadvances.stays_gone n hissued hgone
    have haccount := hadvances.logs.gone n hgone'
    rw [held_of_gone hgone] at haccount
    exact (ih hready (hadvances.issued n hissued) hgone').trans
      (haccount.trans (List.append_nil _))

/-- **A call in which a node goes tells the end of its account.** -/
theorem Ready.account_of_going (h : w.Ready (call :: rest)) (hlive : w.graph.hasNode n = true)
    (hgone : (call.apply w).graph.hasNode n = false) :
    ((call.apply w).run rest).account n =
      w.account n ++ relocation n (w.graph.held n) none := by
  obtain ⟨hready, hadvances⟩ := h.step
  have hissued := hadvances.issued n (issued_of_hasNode hlive)
  exact (hready.account_of_gone hissued hgone).trans (hadvances.logs.gone n hgone)

/-- **The journal tells of each node in turn.** Of one declaration or context it tells
    entries and removals in turn, an entry first, each removal from the path of the
    entry before it and successful. It ends with an entry exactly if the node is there
    and says the path of this entry. A node that goes is removed, if it was held, and
    nothing is told of its handle after that, whatever calls follow. -/
theorem journal_in_turn (limits : Limits) (calls : List Call)
    (hcontexts : (empty limits).FewFrees calls)
    (hdeclarations : (empty limits).FewDeclarationFrees calls) (n : Node) :
    let w := (empty limits).run calls
    Alternates n none (w.account n) (w.graph.held n) ∧
    (∀ k, (w.account n).getLast? = some ⟨.enter n k, true⟩ ↔ w.graph.held n = some k) ∧
    ∀ before call rest, calls = before ++ call :: rest →
      let w₁ := (empty limits).run before
      w₁.graph.hasNode n = true → (call.apply w₁).graph.hasNode n = false →
      w.account n = w₁.account n ++ relocation n (w₁.graph.held n) none := by
  intro w
  have hready := ready_empty hcontexts hdeclarations
  have halternates : Alternates n none (w.account n) (w.graph.held n) := by
    obtain ⟨es, haccount, halternates⟩ := hready.writes n
    have hheld : (empty limits).graph.held n = none := by cases n <;> rfl
    rw [hheld] at halternates
    rw [haccount]
    exact halternates
  refine ⟨halternates, halternates.getLast?_eq_enter_iff, ?_⟩
  intro before call rest hcalls w₁ hlive hgone
  rw [hcalls] at hready
  have hw : w = (call.apply w₁).run rest := by
    show (empty limits).run calls = _
    rw [hcalls, run_append]
    rfl
  rw [hw]
  exact hready.run.account_of_going hlive hgone

/-- A file with a namespace and a declaration in it is registered, its namespace is
    renamed, and it is put below another file, which then is registered, taken out and
    registered again. -/
def nestedFile : List Call :=
  [.change (.createTop ⟨0⟩ {}), .change (.createTop ⟨1⟩ {}), .change (.createContext ⟨1, 0⟩ {}),
    .change (.setKind ⟨2, 0⟩ .nameSpace), .change (.setScopeName ⟨2, 0⟩ { path := ["a"] }),
    .change (.declare ⟨2, 0⟩ "m" {} .ordinary), .change (.register ⟨⟨1, 0⟩⟩),
    .change (.setScopeName ⟨2, 0⟩ { path := ["b"] }), .change (.register ⟨⟨0, 0⟩⟩),
    .change (.addChild ⟨0, 0⟩ ⟨1, 0⟩), .change (.unregister ⟨⟨0, 0⟩⟩),
    .change (.register ⟨⟨0, 0⟩⟩)]

/-- A registered file with a declaration, which takes the first free slot. -/
def fileAgain : List Call :=
  [.change (.createTop ⟨2⟩ {}), .change (.register ⟨⟨0, 1⟩⟩),
    .change (.declare ⟨0, 1⟩ "m" {} .ordinary)]

/-- The declaration goes with the outer file. What is told after that is of the handle
    that has the slot next. -/
theorem journal_in_turn_nested :
    let n : Node := .declaration ⟨0, 0⟩
    let w₁ := (empty {}).run nestedFile
    let w := (empty {}).run (nestedFile ++ .change (.deleteContext ⟨0, 0⟩) :: fileAgain)
    w₁.graph.held n = some ["b", "m"] ∧
    (w₁.account n).getLast? = some ⟨.addDeclaration ["b", "m"] ⟨0, 0⟩, true⟩ ∧
    w.account n = w₁.account n ++ [⟨.removeDeclaration ["b", "m"] ⟨0, 0⟩, true⟩] ∧
    Alternates n none (w.account n) none ∧ (w.account n).length = 6 ∧
    (w.account (.declaration ⟨0, 1⟩)).length = 1 := by
  intro n w₁ w
  have hbefore := journal_in_turn {} nestedFile (fewFrees_of_length (by decide))
    (fewDeclarationFrees_of_length (by decide)) n
  have hall := journal_in_turn {} (nestedFile ++ .change (.deleteContext ⟨0, 0⟩) :: fileAgain)
    (fewFrees_of_length (by decide)) (fewDeclarationFrees_of_length (by decide)) n
  have hheld : w₁.graph.held n = some ["b", "m"] := by decide +kernel
  have hgone : w.graph.held n = none := by decide +kernel
  have hend := hall.2.2 nestedFile _ fileAgain rfl (by decide +kernel) (by decide +kernel)
  have hturns := hall.1
  rw [hgone] at hturns
  rw [hheld] at hend
  exact ⟨hheld, (hbefore.2.1 _).mpr hheld, hend, hturns, by decide +kernel, by decide +kernel⟩

end Workspace

end ScopeGraph
