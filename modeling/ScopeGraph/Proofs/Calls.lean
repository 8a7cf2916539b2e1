/-
  File:      ScopeGraph/Proofs/Calls.lean
  Subject:   Everything that can be done with a workspace, and the states that
             a sequence of calls leads to.

  * `Change`: the edits, with all their arguments; `Question`: the questions
    that go through the hop memo or give warnings. Handles are arbitrary: they
    may be stale, of no node yet, or of a node of another sort than they say.
  * `Change.edit`: the edit that a change stands for.
  * `Workspace.run`: the workspace after a sequence of calls. A call that
    fails keeps the workspace it had reached.
  * `FewFrees`, `FewDeclarationFrees`: no slot of a context, or of a
    declaration, is freed `2 ^ 32` times in a sequence of calls.
  * `NestsNoTop`: no call of a sequence puts a top below another context.
-/
import ScopeGraph.Edit.Files
import ScopeGraph.Edit.Teardown
import ScopeGraph.Proofs.Handles
import ScopeGraph.Search.Contexts
import ScopeGraph.Search.Declarations

namespace ScopeGraph

/-! ## 1. Calls -/

/-- The workspace after an edit, also after one that failed. -/
def Edit.after {α : Type} (e : Edit α) (w : Workspace) : Workspace :=
  match e w with
  | .ok _ w' => w'
  | .error _ w' => w'

/-- The edits of a workspace. -/
inductive Change where
  | createTop (file : FileId) (range : Span)
  | createContext (parent : ContextId) (range : Span)
  | createAnonymous (parent : ContextId) (range : Span)
  | addChild (parent child : ContextId)
  | removeChild (parent child : ContextId)
  | setKind (c : ContextId) (kind : ContextKind)
  | setScopeName (c : ContextId) (name : QualName)
  | setPropagates (c : ContextId) (on : Bool)
  | declare (c : ContextId) (name : Ident) (range : Span) (kind : DeclKind)
  | addDeclaration (c : ContextId) (d : DeclId)
  | removeDeclaration (c : ContextId) (d : DeclId)
  | setDeclarationContext (d : DeclId) (c : Option ContextId)
  | rename (d : DeclId) (name : Ident)
  | setRange (d : DeclId) (range : Span)
  | setType (d : DeclId) (type : Option TypeId)
  | setInternal (d : DeclId) (internal : Option ContextId)
  | setOwner (c : ContextId) (owner : Option DeclId)
  | setAliased (d : DeclId) (target : Option DeclId)
  | setNamespaceTarget (d : DeclId) (target : QualName)
  | addImport (c target : ContextId) (position : Option Position)
  | removeImport (c target : ContextId)
  | clearImports (c : ContextId)
  | createUse (c : ContextId) (index : Nat) (range : Span) (before : Option Nat)
  | setUseRange (c : ContextId) (place : Nat) (range : Span)
  | setUseIndex (c : ContextId) (place index : Nat)
  | deleteUse (c : ContextId) (place : Nat)
  | deleteUses (c : ContextId)
  | register (t : TopId)
  | unregister (t : TopId)
  | addProblem (t : TopId) (p : Problem)
  | clearProblems (t : TopId)
  | setFlags (t : TopId) (flags : FileFlags)
  | setHasUses (t : TopId) (on : Bool)
  | setIdentity (t : TopId) (identity : FileIdentity)
  | declarationIndex (t : TopId) (d : DeclId)
  | deleteDeclaration (d : DeclId)
  | clearDeclarations (c : ContextId)
  | deleteContext (c : ContextId)
  | clean (c : ContextId) (keep : List Node)

/-- The edit that a change makes, with the type of its answer. -/
def Change.edit : Change → (α : Type) × Edit α
  | .createTop file range => ⟨_, Edit.createTop file range⟩
  | .createContext p range => ⟨_, Edit.createContext p range⟩
  | .createAnonymous p range => ⟨_, Edit.createAnonymous p range⟩
  | .addChild p c => ⟨_, Edit.addChild p c⟩
  | .removeChild p c => ⟨_, Edit.removeChild p c⟩
  | .setKind c kind => ⟨_, Edit.setKind c kind⟩
  | .setScopeName c name => ⟨_, Edit.setScopeName c name⟩
  | .setPropagates c on => ⟨_, Edit.setPropagates c on⟩
  | .declare c name range kind => ⟨_, Edit.declare c name range kind⟩
  | .addDeclaration c d => ⟨_, Edit.addDeclaration c d⟩
  | .removeDeclaration c d => ⟨_, Edit.removeDeclaration c d⟩
  | .setDeclarationContext d c => ⟨_, Edit.setDeclarationContext d c⟩
  | .rename d name => ⟨_, Edit.rename d name⟩
  | .setRange d range => ⟨_, Edit.setRange d range⟩
  | .setType d type => ⟨_, Edit.setType d type⟩
  | .setInternal d internal => ⟨_, Edit.setInternal d internal⟩
  | .setOwner c owner => ⟨_, Edit.setOwner c owner⟩
  | .setAliased d target => ⟨_, Edit.setAliased d target⟩
  | .setNamespaceTarget d target => ⟨_, Edit.setNamespaceTarget d target⟩
  | .addImport c target position => ⟨_, Edit.addImport c target position⟩
  | .removeImport c target => ⟨_, Edit.removeImport c target⟩
  | .clearImports c => ⟨_, Edit.clearImports c⟩
  | .createUse c index range before => ⟨_, Edit.createUse c index range before⟩
  | .setUseRange c place range => ⟨_, Edit.setUseRange c place range⟩
  | .setUseIndex c place index => ⟨_, Edit.setUseIndex c place index⟩
  | .deleteUse c place => ⟨_, Edit.deleteUse c place⟩
  | .deleteUses c => ⟨_, Edit.deleteUses c⟩
  | .register t => ⟨_, Edit.register t⟩
  | .unregister t => ⟨_, Edit.unregister t⟩
  | .addProblem t p => ⟨_, Edit.addProblem t p⟩
  | .clearProblems t => ⟨_, Edit.clearProblems t⟩
  | .setFlags t flags => ⟨_, Edit.setFlags t flags⟩
  | .setHasUses t on => ⟨_, Edit.setHasUses t on⟩
  | .setIdentity t identity => ⟨_, Edit.setIdentity t identity⟩
  | .declarationIndex t d => ⟨_, Edit.declarationIndex t d⟩
  | .deleteDeclaration d => ⟨_, Edit.deleteDeclaration d⟩
  | .clearDeclarations c => ⟨_, Edit.clearDeclarations c⟩
  | .deleteContext c => ⟨_, Edit.deleteContext c⟩
  | .clean c keep => ⟨_, Edit.clean c keep⟩

/-- The workspace after a change. -/
def Change.apply (e : Change) : Workspace → Workspace := e.edit.2.after

/-- The questions to a workspace. -/
inductive Question where
  | importsTop (source target : TopId)
  | importTrace (source target : TopId)
  | imports (c origin : ContextId)
  | findDeclarations (c : ContextId) (name : QualName) (position : Option Position)
      (type : Option TypeId) (flags : SearchFlags)
  | findContexts (c : ContextId) (kind : ContextKind) (name : QualName)
      (position : Option Position) (flags : SearchFlags)
  | findLocal (c : ContextId) (name : Ident) (position : Option Position) (filter : DeclFilter)
  | resolveAlias (d : DeclId)

/-- The workspace after a question. -/
def Question.apply : Question → Workspace → Workspace
  | .importsTop source target => fun w => (w.ask (·.importsTop source target)).2
  | .importTrace source target => fun w => (w.ask (·.importTrace source target)).2
  | .imports c origin => fun w => (w.ask (·.imports c origin)).2
  | .findDeclarations c name position type flags =>
    fun w => (w.ask (·.findDeclarations c name position type flags)).2
  | .findContexts c kind name position flags =>
    fun w => (w.ask (·.findContexts c kind name position flags)).2
  | .findLocal c name position filter =>
    fun w => (w.ask fun g => g.findLocal c name position filter).2
  | .resolveAlias d => fun w => (w.ask fun g => Noted.ofExcept (g.resolveAlias d)).2

/-- An edit or a question. -/
inductive Call where
  | change (e : Change)
  | question (q : Question)

/-- The workspace after a call. -/
def Call.apply : Call → Workspace → Workspace
  | .change e => e.apply
  | .question q => q.apply

/-! ## 2. Sequences of calls -/

namespace Workspace

/-- The workspace after a sequence of calls. -/
def run (w : Workspace) : List Call → Workspace
  | [] => w
  | call :: rest => (call.apply w).run rest

/-- How many calls of a sequence free a slot of the contexts. -/
def contextFrees (w : Workspace) (i : Nat) : List Call → Nat
  | [] => 0
  | call :: rest =>
    (w.graph.contexts.freed (call.apply w).graph.contexts i).toNat +
      (call.apply w).contextFrees i rest

/-- No slot of a context is freed `2 ^ 32` times: every handle of a context
    that is ever given out is given out once. -/
def FewFrees (w : Workspace) (calls : List Call) : Prop :=
  ∀ i, w.contextFrees i calls < UInt32.size

/-- How many calls of a sequence free a slot of the declarations. -/
def declarationFrees (w : Workspace) (i : Nat) : List Call → Nat
  | [] => 0
  | call :: rest =>
    (w.graph.declarations.freed (call.apply w).graph.declarations i).toNat +
      (call.apply w).declarationFrees i rest

/-- No slot of a declaration is freed `2 ^ 32` times. -/
def FewDeclarationFrees (w : Workspace) (calls : List Call) : Prop :=
  ∀ i, w.declarationFrees i calls < UInt32.size

/-- Whether a call puts a top below another context. -/
def nestsTop (w : Workspace) : Call → Bool
  | .change (.addChild _ c) => (w.graph.top? c).isSome
  | _ => false

/-- No call of a sequence puts a top below another context. -/
def NestsNoTop (w : Workspace) : List Call → Prop
  | [] => True
  | call :: rest => w.nestsTop call = false ∧ (call.apply w).NestsNoTop rest

instance decidableNestsNoTop : ∀ (w : Workspace) (calls : List Call), Decidable (w.NestsNoTop calls)
  | _, [] => isTrue trivial
  | w, call :: rest =>
    have := decidableNestsNoTop (call.apply w) rest
    inferInstanceAs (Decidable (w.nestsTop call = false ∧ (call.apply w).NestsNoTop rest))

end Workspace

end ScopeGraph
