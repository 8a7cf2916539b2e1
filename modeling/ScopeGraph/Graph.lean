/-
  File:      ScopeGraph/Graph.lean
  Subject:   The graph of contexts and declarations, and its plain queries.

  The graph holds the two node stores and the symbol table. All walks along
  the links of the graph are built from two lists:

  * `lineage c`: the context `c`, its parent, the parent's parent, and so on
    (a parent that is gone still ends the list);
  * `subtree c`: the context `c` and all that its children reach, each
    context before its children.

  No chain of distinct live contexts is longer than the store has slots, so
  walks of `Graph.chainBound` steps reach the end of every chain.
-/
import ScopeGraph.Context
import ScopeGraph.Limits
import ScopeGraph.Store
import ScopeGraph.SymbolTable

namespace ScopeGraph

/-- Contexts, declarations, and the symbol table of the registered files. -/
structure Graph where
  limits : Limits := {}
  contexts : Store .context Context := {}
  declarations : Store .declaration Declaration := {}
  table : SymbolTable := {}
  deriving DecidableEq, Repr, Inhabited

namespace Graph

variable (g : Graph)

/-! ## 1. Nodes -/

/-- The context of a handle. -/
def context? (c : ContextId) : Option Context := g.contexts.get? c

/-- The declaration of a handle. -/
def declaration? (d : DeclId) : Option Declaration := g.declarations.get? d

/-- Whether a handle names a context. -/
def hasContext (c : ContextId) : Bool := g.contexts.contains c

/-- Whether a handle names a declaration. -/
def hasDeclaration (d : DeclId) : Bool := g.declarations.contains d

/-- The context as a top, if it is one. -/
def top? (c : ContextId) : Option TopId :=
  match g.context? c with
  | some data => if data.isTop then some ⟨c⟩ else none
  | none => none

/-- All tops, in slot order. -/
def tops : List TopId :=
  (g.contexts.entries.filter (·.2.isTop)).map fun e => ⟨e.1⟩

/-- The record of the file of a top. -/
def fileRecord? (t : TopId) : Option FileRecord :=
  (g.context? t.context).bind (·.file)

/-- Where a declaration starts; a stale one counts as at the very start. -/
def startOfDeclaration (d : DeclId) : Position :=
  ((g.declaration? d).map (·.range.start)).getD {}

/-- Where a context starts; a stale one counts as at the very start. -/
def startOfContext (c : ContextId) : Position :=
  ((g.context? c).map (·.range.start)).getD {}

/-- The graph with a context changed. -/
def modifyContext (c : ContextId) (f : Context → Context) : Graph :=
  { g with contexts := g.contexts.modify c f }

/-- The graph with a declaration changed. -/
def modifyDeclaration (d : DeclId) (f : Declaration → Declaration) : Graph :=
  { g with declarations := g.declarations.modify d f }

/-! ## 2. Upwards -/

/-- More steps than any chain of distinct live contexts has. -/
def chainBound : Nat := g.contexts.capacity + 1

/-- The parent of a context. -/
def parent? (c : ContextId) : Option ContextId := (g.context? c).bind (·.parent)

/-- At most `n` contexts upwards from a context. -/
def lineageWithin : Nat → ContextId → List ContextId
  | 0, _ => []
  | n + 1, c =>
    c :: match g.parent? c with
      | some p => lineageWithin n p
      | none => []

/-- A context, its parent, the parent's parent, and so on. -/
def lineage (c : ContextId) : List ContextId := g.lineageWithin g.chainBound c

/-- The number of contexts above a context. -/
def depth (c : ContextId) : Nat := (g.lineage c).length - 1

/-- The nearest top at or above a context. -/
def topOf? (c : ContextId) : Option TopId := (g.lineage c).findSome? g.top?

/-- The file a context belongs to. -/
def fileOf? (c : ContextId) : Option FileId :=
  (g.topOf? c).bind fun t => (g.fileRecord? t).map (·.file)

/-- Whether the first context is the second one or above it. -/
def isAtOrAbove (upper lower : ContextId) : Bool := decide (upper ∈ g.lineage lower)

/-- What a context adds to the path of what it holds; classes may be passed
    over. -/
def scopePart (classes : Bool) (c : ContextId) : Path :=
  match g.context? c with
  | some data => if classes || data.kind ≠ .classBody then data.scopeName.path else []
  | none => []

/-- The scope names from the outermost context in, with or without those of
    classes. -/
def scopePathWith (classes : Bool) (c : ContextId) : Path :=
  (g.lineage c).reverse.flatMap (g.scopePart classes)

/-- The path of a context: all scope names from the outermost context in. -/
def scopePath (c : ContextId) : Path := g.scopePathWith true c

/-- The full path of a declaration. -/
def pathOf (data : Declaration) : Path :=
  (match data.context with
    | some c => g.scopePath c
    | none => []) ++ [data.name]

/-- Whether two chains of contexts have the same scope names, step by step. -/
def sameScopes : List ContextId → List ContextId → Bool
  | [], [] => true
  | l :: ls, r :: rs =>
    match g.context? l, g.context? r with
    | some a, some b => a.scopeName.sameAs b.scopeName && sameScopes ls rs
    | _, _ => false
  | _, _ => false

/-- Whether two contexts have the same scope names all the way up. -/
def equalScope (left right : ContextId) : Bool :=
  g.sameScopes (g.lineage left) (g.lineage right)

/-- Of a chain of contexts, those that the first one's names reach: each
    passes them on to the next if it propagates. -/
def propagationAlong : List ContextId → List ContextId
  | [] => []
  | c :: rest =>
    match g.context? c with
    | some data => c :: if data.propagates then propagationAlong rest else []
    | none => []

/-- The contexts whose index shows what is declared in a context. -/
def propagationChain (c : ContextId) : List ContextId :=
  g.propagationAlong (g.lineage c)

/-! ## 3. Downwards -/

/-- The children of a context. -/
def children (c : ContextId) : List ContextId :=
  ((g.context? c).map (·.children)).getD []

/-- A context and, `n` levels deep, what is below it; `order` says in which
    order the children of a context come. -/
def subtreeWithin (order : List ContextId → List ContextId) : Nat → ContextId → List ContextId
  | 0, _ => []
  | n + 1, c => c :: (order (g.children c)).flatMap (subtreeWithin order n)

/-- A context and all below it, children in their order. -/
def subtree (c : ContextId) : List ContextId := g.subtreeWithin id g.chainBound c

/-- A context and all below it, the last child first. -/
def subtreeBackwards (c : ContextId) : List ContextId :=
  g.subtreeWithin List.reverse g.chainBound c

/-- Whether the second context is the first one or is found below it. -/
def isParentOf (upper lower : ContextId) : Bool := decide (lower ∈ g.subtree upper)

/-- The innermost context, at most `n` levels deep, whose range passes a
    test that is passed by its ancestors too. -/
def innermostWithin (test : Span → Bool) : Nat → ContextId → Option ContextId
  | 0, _ => none
  | n + 1, c =>
    match g.context? c with
    | some data =>
      if test data.range then
        some ((data.children.findSome? (innermostWithin test n)).getD c)
      else none
    | none => none

/-- The innermost context at a position. -/
def contextAt? (c : ContextId) (p : Position) : Option ContextId :=
  g.innermostWithin (·.contains p) g.chainBound c

/-- The innermost context around a span. -/
def contextAround? (c : ContextId) (s : Span) : Option ContextId :=
  g.innermostWithin (·.encloses s) g.chainBound c

/-! ## 4. What a context holds -/

/-- The own declarations of a context, by start. -/
def localDeclarations (c : ContextId) : List DeclId :=
  ((g.context? c).map (·.locals.ordered)).getD []

/-- The declarations a context's index has under a name. -/
def indexed (c : ContextId) (name : Ident) : List DeclId :=
  ((g.context? c).map (·.locals.find name)).getD []

/-- Where a context writes the import of another one. -/
def importPosition? (c target : ContextId) : Option Position :=
  (g.context? c).bind fun data =>
    (data.imports.find? (·.context = target)).bind (·.position)

/-- The place of the first use at a position. -/
def useAt? (c : ContextId) (p : Position) : Option Nat :=
  match g.context? c with
  | some data =>
    if data.range.contains p then data.uses.findIdx? (·.range.contains p) else none
  | none => none

/-- The ranges of the uses of a declaration index in a context. -/
def usesIn (index : Nat) (c : ContextId) : List Span :=
  match g.context? c with
  | some data => (data.uses.filter (·.index = index)).map (·.range)
  | none => []

/-- The ranges of the uses of a declaration index in at most `n` contexts
    from a stack, on which each context's children take its place. -/
def usesAlong (index : Nat) : Nat → List ContextId → List Span
  | 0, _ => []
  | _ + 1, [] => []
  | n + 1, c :: stack => g.usesIn index c ++ usesAlong index n (g.children c ++ stack)

/-- The ranges of all uses of a declaration index at or below a context. -/
def allUses (c : ContextId) (index : Nat) : List Span :=
  g.usesAlong index g.chainBound [c]

/-- The live declaration a file has under an index. -/
def usedDeclaration? (t : TopId) (index : Nat) : Option DeclId :=
  match g.fileRecord? t with
  | some r => (r.numbers.places[index]?.join).filter g.hasDeclaration
  | none => none

/-! ## 5. Registration -/

/-- Whether a top is alive and its file is in the symbol table. -/
def isRegistered (t : TopId) : Bool :=
  match g.context? t.context with
  | some data => data.isTop && data.registered
  | none => false

/-- The path under which a context belongs into the symbol table. -/
def contextKey? (c : ContextId) : Option Path :=
  match g.context? c with
  | some data =>
    if data.registered && !data.anonymous && !data.scopeName.isEmpty then
      some (g.scopePath c)
    else none
  | none => none

/-- Whether a context enters its declarations into the symbol table. -/
def registers (c : ContextId) : Bool :=
  match g.context? c with
  | some data => data.registered && data.kind.registersDeclarations
  | none => false

/-- The path under which a declaration belongs into the symbol table. -/
def declarationKey? (d : DeclId) : Option Path :=
  match g.declaration? d with
  | some data =>
    if data.context.any g.registers then some (g.pathOf data) else none
  | none => none

end Graph

end ScopeGraph
