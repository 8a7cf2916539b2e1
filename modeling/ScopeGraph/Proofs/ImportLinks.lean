/-
  File:      ScopeGraph/Proofs/ImportLinks.lean
  Subject:   What a graph shows of imports, and which edits leave it alone.

  `Context.links` is the part of a context that has to do with imports: what
  it imports, what imports it, and whether it is a top. `Context.ties` is all
  that a context says of other contexts, its parent and children too. Most
  edits change the ties of no context and not the hop memo (`SameTies`), and
  nesting changes no links (`SameLinks`).
-/
import ScopeGraph.Proofs.Frames

namespace ScopeGraph

/-! ## 1. The views -/

/-- What a context imports, what imports it, and whether it is a top. -/
structure Links where
  imports : List ContextId
  importers : List ContextId
  isTop : Bool

/-- The import links of a context, without positions. -/
def Context.links (data : Context) : Links :=
  ⟨data.imports.map (·.context), data.importers, data.isTop⟩

/-- What ties a context to others: its links, and its place in the tree. -/
structure Ties where
  links : Links
  parent : Option ContextId
  anonymous : Bool
  children : List ContextId

/-- The ties of a context. -/
def Context.ties (data : Context) : Ties :=
  ⟨data.links, data.parent, data.anonymous, data.children⟩

theorem Context.ties_file (data : Context) (f : FileRecord → FileRecord) :
    { data with file := data.file.map f }.ties = data.ties := by
  simp [ties, links, isTop]

namespace Graph

variable (g : Graph)

/-- The import links of all contexts. -/
def links : Store .context Links := g.contexts.map Context.links

/-- The ties of all contexts. -/
def ties : Store .context Ties := g.contexts.map Context.ties

theorem links_get? (c : ContextId) : g.links.get? c = (g.context? c).map Context.links :=
  Store.get?_map _ _ c

end Graph

namespace Workspace.View

/-- The view of a part of all contexts, and of the hop memo. -/
def withMemo {β : Type} (v : Context → β) : View β Unit (Store .context β) HopMemo where
  graph := .ofContexts v
  rest memo _ := memo

theorem overlooksOwners_ties : (withMemo Context.ties).graph.OverlooksOwners where
  owner _ _ := rfl
  uses _ _ := rfl
  declaration _ _ _ _ := rfl

theorem overlooksContents_ties : (withMemo Context.ties).OverlooksContents where
  graph :=
    { locals := fun _ _ => rfl
      kind := fun _ _ => rfl
      scopeName := fun _ _ => rfl
      propagates := fun _ _ => rfl
      registered := fun _ _ => rfl
      key := fun _ _ => rfl
      others := fun _ _ _ _ _ _ => rfl }
  events _ _ _ := rfl

theorem overlooksContents_links : (withMemo Context.links).OverlooksContents where
  graph :=
    { locals := fun _ _ => rfl
      kind := fun _ _ => rfl
      scopeName := fun _ _ => rfl
      propagates := fun _ _ => rfl
      registered := fun _ _ => rfl
      key := fun _ _ => rfl
      others := fun _ _ _ _ _ _ => rfl }
  events _ _ _ := rfl

theorem overlooksTree_links : (withMemo Context.links).graph.OverlooksTree where
  parent _ _ := rfl
  children _ _ := rfl

end Workspace.View

open Workspace.View

/-- The links of all contexts and the hop memo are the same. -/
abbrev SameLinks : Workspace → Workspace → Prop := (withMemo Context.links).Same

/-- The ties of all contexts and the hop memo are the same. -/
abbrev SameTies : Workspace → Workspace → Prop := (withMemo Context.ties).Same

namespace SameLinks

variable {w w' : Workspace}

theorem links (h : SameLinks w w') : w'.graph.links = w.graph.links := Same.graph h

theorem memo (h : SameLinks w w') : w'.memo = w.memo := Same.rest h

theorem unlinkChild (w : Workspace) (p c : ContextId) :
    SameLinks w (w.onGraph (·.unlinkChild p c)) :=
  Same.onGraph (.unlinkChild (fun _ _ _ => rfl) (fun _ _ => rfl) (fun _ _ => rfl) w.graph p c)

end SameLinks

/-! ## 2. Steps of a teardown -/

namespace SameTies

variable {w w' : Workspace}

theorem ties (h : SameTies w w') : w'.graph.ties = w.graph.ties := Same.graph h

theorem memo (h : SameTies w w') : w'.memo = w.memo := Same.rest h

theorem sameLinks (h : SameTies w w') : SameLinks w w' :=
  Same.mk (Store.map_eq_of_map_eq (v := Context.ties) Ties.links h.ties) h.memo

theorem registerSubtree (w : Workspace) (c : ContextId) (registered : Bool) :
    SameTies w (w.registerSubtree c registered) :=
  Same.registerSubtree overlooksContents_ties.registry w c registered

theorem discard (w : Workspace) (d : DeclId) (data : Declaration) :
    SameTies w (w.discard d data) :=
  Same.discard (fun _ _ => rfl) (fun _ _ => rfl) (fun data f => data.ties_file f)
    (fun _ _ => overlooksContents_ties.graph.of_contexts) (fun _ _ _ => rfl) w d data

theorem sever (w : Workspace) (c : ContextId) (data : Context) : SameTies w (w.sever c data) := by
  unfold Workspace.sever
  refine Same.thenWhenSome (.thenWhenSome (.onGraph (.modifyContext _ c ?mark)) fun d => ?opened)
    fun key => ?table
  case mark => exact fun data => data.ties_file _
  case opened | table => rfl

end SameTies

/-! ## 3. Edits that leave the ties alone -/

namespace Edit

theorem sameTies_deleteDeclaration (d : DeclId) : Follows SameTies (deleteDeclaration d) :=
  fun w => after_deleteDeclaration (.refl w) fun data _ => .discard w d data

theorem sameTies_dropDeclarations (ds : List DeclId) :
    Follows SameTies (dropDeclarations ds) := by
  refine follows_forEach (fun d => follows_graph.bind fun g => ?_) ds
  split
  · exact sameTies_deleteDeclaration d
  · exact follows_pure ()

theorem sameTies_declarationIndex (t : TopId) (d : DeclId) :
    Follows SameTies (declarationIndex t d) := by
  refine (follows_needDeclaration d).bind fun _ => (follows_needFile t).bind fun r => ?_
  split
  · exact follows_pure _
  · exact (same_updateContext fun data => Context.ties_file data _).bind fun _ => follows_pure _

theorem sameLinks_addChild (p c : ContextId) : Follows SameLinks (addChild p c) :=
  same_addChild overlooksContents_links overlooksTree_links p c

end Edit

namespace Change

/-- The changes that make a context, take one away, or change an import. -/
def touchesLinks : Change → Bool
  | .createTop .. | .createContext .. | .createAnonymous .. | .addImport .. | .removeImport ..
  | .clearImports .. | .deleteContext .. | .clean .. => true
  | _ => false

/-- The changes that put a context below another one or take it away from there. -/
def nests : Change → Bool
  | .addChild .. | .removeChild .. => true
  | _ => false

/-- **Every other change leaves the ties and the memo alone.** -/
theorem sameTies {e : Change} (h : e.touchesLinks = false) (hn : e.nests = false)
    (w : Workspace) : SameTies w (e.apply w) := by
  cases hf : e.footprint with
  | owners => exact same_of_owners hf overlooksOwners_ties w
  | contents => exact same_of_contents hf overlooksContents_ties w
  | file => exact same_of_file hf (fun data f _ => data.ties_file f) w
  | numbers =>
    cases e with
    | declarationIndex t d => exact Edit.sameTies_declarationIndex t d w
    | _ => cases hf
  | teardown =>
    cases e with
    | deleteDeclaration d => exact Edit.sameTies_deleteDeclaration d w
    | deleteContext | clean => cases h
    | _ => cases hf
  | tree =>
    cases e with
    | addChild | removeChild => cases hn
    | _ => cases hf
  | imports | making =>
    cases e with
    | createTop | createContext | createAnonymous | addImport | removeImport | clearImports =>
      cases h
    | _ => cases hf

/-- A change that makes no context, takes none away and changes no import leaves the
    links and the memo alone. -/
theorem sameLinks {e : Change} (h : e.touchesLinks = false) (w : Workspace) :
    SameLinks w (e.apply w) := by
  by_cases hn : e.nests = true
  · refine same_of_tree ?_ overlooksContents_links overlooksTree_links w
    cases e with
    | addChild | removeChild => rfl
    | _ => cases hn
  · exact (sameTies h (Bool.eq_false_iff.mpr hn) w).sameLinks

end Change

end ScopeGraph
