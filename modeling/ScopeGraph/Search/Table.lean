/-
  File:      ScopeGraph/Search/Table.lean
  Subject:   Searching the symbol table from a registered file.

  From a file one sees what is registered in the file itself up to the
  position looked from, and all that is registered in files it imports. In
  classes the position does not matter.

  Before the table is asked, the names are expanded by the namespace imports
  and aliases that are registered (`expandNames`). A round of the expansion
  looks at one offset: imports registered inside the first `offset` segments
  of a name, and aliases registered as its first `offset + 1` segments. What
  an alias or import puts in front of a name is itself expanded, up to the
  same offset and from where the alias is written. Rounds go on while a name
  is longer than the offset; past the longest registered path no round
  finds anything.
-/
import ScopeGraph.Alias
import ScopeGraph.Reach
import ScopeGraph.Search.Flags

namespace ScopeGraph

/-- A registered namespace alias: its target and its text. -/
structure TableAlias where
  target : QualName
  range : Span
  deriving DecidableEq, Repr, Inhabited

/-- What becomes of a target put in front of the rest of a name, where the
    alias with this target starts at `start`. -/
abbrev Expansion := (target : QualName) → (rest : Path) → (start : Position) → Query (List Path)

namespace Graph

variable (g : Graph)

/-! ## 1. What a file sees of the table -/

/-- Whether a context is a class. -/
def isClass (c : ContextId) : Bool :=
  match g.context? c with
  | some data => data.kind = .classBody
  | none => false

/-- Whether a file sees what is in another file, or what starts at `start` in
    the file itself; `anywhere` says that the position does not matter. -/
def fileSees (top other : TopId) (start : Position) (anywhere : Bool)
    (position : Option Position) : Query Bool :=
  if other ≠ top then g.importsTop top other
  else return !isAfter start position || anywhere

/-- What a file sees of one registered declaration: the declaration it stands
    for, if it passes the filter. -/
def checkDeclaration (top : TopId) (position : Option Position) (filter : DeclFilter)
    (d : DeclId) : Query (List DeclId) := do
  let some data ← Noted.ofExcept (g.liveDeclaration d) | return []
  let some other := data.context.bind g.topOf? | return []
  if !(← g.fileSees top other data.range.start (data.context.any g.isClass) position) then
    return []
  let some e ← Noted.ofExcept (g.resolveAlias d) | return []
  let some found := g.declaration? e | return []
  return if filter.accepts found then [e] else []

/-- What a file sees of registered declarations. -/
def checkDeclarations (top : TopId) (position : Option Position) (filter : DeclFilter) :
    List DeclId → Query (List DeclId) :=
  gatherM (g.checkDeclaration top position filter)

/-! ## 2. Expansion of names -/

/-- The namespace aliases that a file sees under a path. -/
def tableAliases (top : TopId) (position : Option Position) (key : Path) :
    Query (List TableAlias) := do
  let ds ← g.checkDeclarations top position {} (g.table.findDeclarations key)
  return ds.filterMap fun d => (g.declaration? d).bind fun data =>
    data.kind.namespaceTarget.map (⟨·, data.range⟩)

/-- What the namespace imports inside the first `offset` segments make of a
    name. -/
def importExpansions (top : TopId) (position : Option Position) (offset : Nat)
    (expand : Expansion) (name : Path) : Query (List Path) := do
  if name.length ≤ offset then return []
  let found ← g.tableAliases top position (name.take offset ++ [.globalImport])
  gatherM (fun a => do
    if a.target.isEmpty then
      Query.warn .importWithoutTarget
      return []
    else expand a.target (name.drop offset) a.range.start) found

/-- What the namespace aliases registered as the first `offset + 1` segments
    make of a name; nothing if there are none. -/
def aliasExpansions (top : TopId) (position : Option Position) (whole : Bool) (offset : Nat)
    (expand : Expansion) (name : Path) : Query (Option (List Path)) := do
  if name.length ≤ (if whole then offset else offset + 1) then return none
  let found ← g.tableAliases top position (name.take (offset + 1))
  let seen := found.filter fun a => !isAfter a.range.stop position
  if seen.isEmpty then return none
  return some (← gatherM (fun a => do
    if a.target.isEmpty then
      Query.warn .aliasWithoutTarget
      return []
    else expand a.target (name.drop (offset + 1)) a.range.start) seen)

/-- One round on one name. -/
def expandName (top : TopId) (position : Option Position) (whole : Bool) (offset : Nat)
    (expand : Expansion) (name : Path) : Query (List Path) := do
  let imported ← g.importExpansions top position offset expand name
  match ← g.aliasExpansions top position whole offset expand name with
  | some renamed => return imported ++ renamed
  | none => return imported ++ [name]

/-- At most `rounds` rounds from an offset on, while a name is longer than
    the offset. -/
def expandRounds (top : TopId) (position : Option Position) (whole : Bool)
    (expand : Nat → Expansion) : Nat → Nat → List Path → Query (List Path)
  | 0, _, names => return names.eraseDups
  | n + 1, offset, names => do
    if names.all fun p => p.length ≤ offset then return names.eraseDups
    let more ← gatherM (g.expandName top position whole offset (expand offset)) names
    expandRounds top position whole expand n (offset + 1) more.eraseDups

/-- The expansion of what a target puts in front of a name, at most `depth`
    targets deep: rounds from the target's length up to the offset at which
    the target was found. -/
def expandUnder (top : TopId) (whole : Bool) : Nat → Nat → Expansion
  | 0, _, target, rest, _ => do
    Query.warn .expansionTooDeep
    return [target.path ++ rest]
  | n + 1, offset, target, rest, start =>
    g.expandRounds top (some start) whole (expandUnder top whole n)
      (offset + 1 - target.length) target.length [target.path ++ rest]

/-- The names that registered namespace imports and aliases make of names. -/
def expandNames (top : TopId) (position : Option Position) (whole : Bool)
    (names : List Path) : Query (List Path) :=
  g.expandRounds top position whole (g.expandUnder top whole g.limits.aliasDepth)
    g.table.longestKey 0 names

end Graph

end ScopeGraph
