/-
  File:      ScopeGraph/Context.lean
  Subject:   Contexts: the scopes of a program.

  A context has a range of text, a kind, a name that may be empty, a parent
  and children, local declarations, and imports of other contexts. The
  outermost context of a file also carries the record of the file.
-/
import ScopeGraph.Declaration
import ScopeGraph.File
import ScopeGraph.Locals

namespace ScopeGraph

/-! ## 1. Kinds of contexts -/

/-- What opens a context. -/
inductive ContextKind where
  | global
  | nameSpace
  | classBody
  | function
  | template
  | other
  deriving DecidableEq, Repr, Inhabited

namespace ContextKind

/-- The word for a kind. -/
def word : ContextKind → String
  | .global => "global"
  | .nameSpace => "namespace"
  | .classBody => "class"
  | .function => "function"
  | .template => "template"
  | .other => "other"

/-- In classes and templates a name is seen before it is declared. -/
def ignoresOrder : ContextKind → Bool
  | .classBody | .template => true
  | _ => false

/-- Which contexts enter their declarations into the symbol table. -/
def registersDeclarations : ContextKind → Bool
  | .global | .nameSpace | .classBody => true
  | _ => false

/-- Files and namespaces: contexts that are there for their names only. -/
def isNamespaceLike : ContextKind → Bool
  | .global | .nameSpace => true
  | _ => false

end ContextKind

/-! ## 2. Links -/

/-- An imported context, and where the import is written. -/
structure Import where
  context : ContextId
  position : Option Position := none
  deriving DecidableEq, Repr, Inhabited

/-- A use of a declaration; the declaration by its index in the file. -/
structure Use where
  range : Span
  index : Nat
  deriving DecidableEq, Repr, Inhabited

/-! ## 3. Files -/

/-- The numbers under which the uses of a file name declarations. Which number a
    declaration has is kept apart from which declaration stands at a number. -/
structure DeclNumbers where
  /-- The number of each declaration that has one. -/
  indices : List (DeclId × UInt32) := []
  /-- The declarations by number. A place whose declaration is gone stays empty,
      so that no number changes its meaning. -/
  places : List (Option DeclId) := []
  deriving DecidableEq, Repr, Inhabited

namespace DeclNumbers

/-- The number of a declaration, if it has one. -/
def find? (n : DeclNumbers) (d : DeclId) : Option UInt32 :=
  (n.indices.find? (·.1 = d)).map (·.2)

/-- The number for the next declaration, a word of 32 bits. -/
def next (n : DeclNumbers) : UInt32 := .ofNat n.places.length

/-- A declaration at the next place, under the next number. -/
def assign (n : DeclNumbers) (d : DeclId) : DeclNumbers where
  indices := (d, n.next) :: n.indices.filter (·.1 ≠ d)
  places := n.places ++ [some d]

/-- A declaration without its number, and the place of the number emptied. -/
def forget (n : DeclNumbers) (d : DeclId) : DeclNumbers :=
  match n.find? d with
  | some i =>
    { indices := n.indices.filter (·.1 ≠ d), places := n.places.set i.toNat none }
  | none => n

end DeclNumbers

/-- What the top context of a file knows about the file. -/
structure FileRecord where
  file : FileId
  identity : FileIdentity
  hasUses : Bool := false
  flags : FileFlags := {}
  problems : List Problem := []
  /-- Set while the file's contexts are torn down. -/
  deleting : Bool := false
  /-- The declarations that uses in this file name. -/
  numbers : DeclNumbers := {}
  deriving DecidableEq, Repr, Inhabited

namespace FileRecord

/-- The record of a file of which nothing is known yet. -/
def new (file : FileId) : FileRecord := { file := file, identity := ⟨file, 0⟩ }

/-- The record with the number of a declaration forgotten. -/
def forget (r : FileRecord) (d : DeclId) : FileRecord :=
  { r with numbers := r.numbers.forget d }

end FileRecord

/-! ## 4. Contexts -/

/-- One scope of a program. -/
structure Context where
  range : Span
  kind : ContextKind := .other
  /-- What the context adds to the path of what it holds. -/
  scopeName : QualName := {}
  /-- The declaration that opens the context. -/
  owner : Option DeclId := none
  parent : Option ContextId := none
  /-- An anonymous context sees its parent and is not among its children. -/
  anonymous : Bool := false
  /-- The inner contexts, by where they start. -/
  children : List ContextId := []
  locals : Locals := {}
  imports : List Import := []
  /-- The contexts that import this one. -/
  importers : List ContextId := []
  /-- Whether the parent sees the names of this context as its own. -/
  propagates : Bool := false
  /-- Whether the context belongs to a registered file. -/
  registered : Bool := false
  /-- The path under which the symbol table holds the context. -/
  key : Option Path := none
  uses : List Use := []
  /-- The file, for a top context. -/
  file : Option FileRecord := none
  deriving DecidableEq, Repr, Inhabited

namespace Context

/-- Whether the context is the top context of a file. -/
def isTop (c : Context) : Bool := c.file.isSome

/-- Whether the context imports another one directly. -/
def importsDirectly (c : Context) (target : ContextId) : Bool :=
  c.imports.any (·.context = target)

end Context

end ScopeGraph
