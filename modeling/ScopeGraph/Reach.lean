/-
  File:      ScopeGraph/Reach.lean
  Subject:   Which file imports which, directly or through others.

  The files of a program import one another, also in circles. A walk from a
  source looks for a target over the imports in the order in which they are
  written. It skips files it is already inside of, and it stops at the
  graph's limit of depth. What it finds goes into the hop memo: a first hop
  always, and that there is no way only if nothing was skipped or cut on the
  way to this answer.

  * `importsTop`: whether one file imports another;
  * `importTrace`: a chain of imports from one to the other;
  * `importersOf`: all contexts from which imports lead to a context;
  * `imports`: the question for contexts of any kind.
-/
import ScopeGraph.Graph
import ScopeGraph.Query

namespace ScopeGraph

/-! ## 1. Walking from file to file -/

/-- The result of a walk: the first hop of a way, or none, and then whether
    every way was tried. -/
inductive Hop where
  | via (next : TopId)
  | absent (complete : Bool)
  deriving DecidableEq, Repr, Inhabited

namespace Hop

/-- Whether a way was found. -/
def found : Hop → Bool
  | .via _ => true
  | .absent _ => false

/-- A failure of which not every way was tried. -/
def cut : Hop → Hop
  | .via t => .via t
  | .absent _ => .absent false

/-- A failure after another failure: complete if both are. -/
def after (earlier : Bool) : Hop → Hop
  | .via t => .via t
  | .absent complete => .absent (earlier && complete)

/-- The remembered form of a walk's result. -/
def ofMemo : Option TopId → Hop
  | some t => .via t
  | none => .absent true

end Hop

/-- A file on the way to a target, and where it imports the next one. -/
structure TraceItem where
  top : TopId
  position : Option Position
  deriving DecidableEq, Repr, Inhabited

namespace Graph

variable (g : Graph)

/-- The first hop to a target over a list of imports. `inside` are the files
    the walk is inside of, `visit` continues it from the next file. -/
def firstHop (target : TopId) (inside : List TopId) (visit : TopId → Query Hop) :
    List Import → Query Hop
  | [] => pure (.absent true)
  | i :: rest =>
    match g.top? i.context with
    | none => do
      Query.warn (if g.hasContext i.context then .nonTopImported else .importedGone)
      firstHop target inside visit rest
    | some next =>
      if next = target then pure (.via next)
      else if next ∈ inside then do
        return (← firstHop target inside visit rest).cut
      else do
        match ← visit next with
        | .via _ => pure (.via next)
        | .absent complete => return (← firstHop target inside visit rest).after complete

/-- The first hop to a target over the imports of a file. -/
def hopFrom (target : TopId) (inside : List TopId) (visit : TopId → Query Hop)
    (source : TopId) : Query Hop :=
  match g.context? source.context with
  | none => do
    Query.warn .importedGone
    pure (.absent true)
  | some data => g.firstHop target inside visit data.imports

/-- What the memo holds, or else what a search finds, which is remembered
    unless it is an incomplete failure. -/
def recallOr (source target : TopId) (search : Query Hop) : Query Hop := do
  match ← Query.remembered source target with
  | some hop => pure (.ofMemo hop)
  | none =>
    match ← search with
    | .via next => do
      Query.remember source target (some next)
      pure (.via next)
    | .absent true => do
      Query.remember source target none
      pure (.absent true)
    | .absent false => pure (.absent false)

/-- The walk from a source to a target, at most `depth` files deep. -/
def reach (target : TopId) : Nat → List TopId → TopId → Query Hop
  | 0, _, source => recallOr source target do
    Query.warn .importsTooDeep
    pure (.absent false)
  | n + 1, inside, source => recallOr source target
    (g.hopFrom target (source :: inside) (reach target n (source :: inside)) source)

/-- The walk from a source to a target at the graph's own depth. -/
def hopTowards (source target : TopId) : Query Hop :=
  g.reach target g.limits.importDepth [] source

/-- Whether a file imports a target, directly or through others. -/
def importsTop (source target : TopId) : Query Bool := do
  return (← g.hopTowards source target).found

/-! ## 2. Traces -/

/-- The chain of hops from a file to the target, of at most `n` files and
    through none twice. -/
def traceFrom (target : TopId) : Nat → List TopId → TopId → Query (Option (List TraceItem))
  | 0, _, _ => pure none
  | n + 1, visited, current =>
    if current ∈ visited then do
      Query.warn .importsInconsistent
      pure none
    else do
      match ← g.hopTowards current target with
      | .absent _ => do
        Query.warn .importsInconsistent
        pure none
      | .via next =>
        let item : TraceItem := ⟨current, g.importPosition? current.context next.context⟩
        if next = target then pure (some [item])
        else return (← traceFrom target n (current :: visited) next).map (item :: ·)

/-- A chain of imports from a file to a target; empty if there is none. -/
def importTrace (source target : TopId) : Query (List TraceItem) := do
  match ← g.hopTowards source target with
  | .absent _ => pure []
  | .via _ => return (← g.traceFrom target (g.chainBound + 1) [] source).getD []

/-! ## 3. Backwards over imports -/

/-- The contexts that import a context directly. -/
def importers (c : ContextId) : List ContextId :=
  ((g.context? c).map (·.importers)).getD []

/-- One context after the other from a queue, its importers put at the end
    of the queue unless they are known. -/
def importersLoop : Nat → List ContextId → List ContextId → List ContextId
  | 0, _, known => known
  | _ + 1, [], known => known
  | n + 1, c :: queue, known =>
    let fresh := ((g.importers c).filter (· ∉ known)).eraseDups
    importersLoop n (queue ++ fresh) (known ++ fresh)

/-- The number of import links, which no walk over importers exceeds. -/
def importLinks : Nat := (g.contexts.entries.flatMap (·.2.importers)).length

/-- A context and all contexts from which imports lead to it. -/
def importersOf (c : ContextId) : List ContextId :=
  g.importersLoop (g.importLinks + 1) [c] [c]

/-- Whether a context is the origin or imports it, directly or through
    others. Between two tops this is the question for files. -/
def imports (c origin : ContextId) : Query Bool :=
  match g.top? c, g.top? origin with
  | some source, some target => g.importsTop source target
  | some _, none => do
    Query.warn .nonTopImported
    pure (decide (c ∈ g.importersOf origin))
  | none, _ => pure (decide (c ∈ g.importersOf origin))

end Graph

end ScopeGraph
