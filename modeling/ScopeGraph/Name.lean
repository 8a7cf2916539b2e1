/-
  File:      ScopeGraph/Name.lean
  Subject:   Identifiers, paths of identifiers, and qualified names.

  A declaration and a scope are named by a PATH, the list of identifiers
  that leads to it. A QUALIFIED NAME is a path as it is written: it may
  begin with the root marker `::`, and then it is meant from the root and
  not from where it stands. Two qualified names are the same name when
  their paths are, whatever the marker says (`QualName.sameAs`,
  `QualName.order`), and everything that is stored under a name is stored
  under its path.

  * reading: `QualName.parse`; writing: `QualName.render`;
  * cutting and joining: `QualName.slice`, `QualName.join`, `QualName.push`;
  * ordering: `Path.order`, segment by segment.
-/
import ScopeGraph.Text.Blank
import ScopeGraph.Text.Quoted

namespace ScopeGraph

/-! ## 1. Identifiers -/

/-- One segment of a name, as it is written. -/
abbrev Ident := String

/-- The reserved identifier under which a context holds its namespace
    imports: no identifier of a source text has braces and dots. -/
def Ident.globalImport : Ident := "\x7b...import...\x7d"

/-- The identifier as a report shows it. -/
def Ident.shown (i : Ident) : String := "Identifier(" ++ Text.quoted i ++ ")"

/-! ## 2. Paths -/

/-- The identifiers that lead to a node, outermost first. -/
abbrev Path := List Ident

/-- The path with `::` between its segments. -/
def Path.render (p : Path) : String := "::".intercalate p

/-- Paths are ordered segment by segment, and a path comes before what
    continues it. -/
def Path.order : Path → Path → Ordering
  | [], [] => .eq
  | [], _ :: _ => .lt
  | _ :: _, [] => .gt
  | a :: p, b :: q => (compare a b).then (Path.order p q)

/-! ## 3. Qualified names -/

/-- A path as it is written, with or without the root marker. -/
structure QualName where
  path : Path := []
  rooted : Bool := false
  deriving DecidableEq, Repr, Inhabited

namespace QualName

/-- The written pieces of a name: the text cut at each `::`, the leftmost
    first, so that of three colons the first two divide. -/
def pieces : List Char → List (List Char)
  | [] => [[]]
  | ':' :: ':' :: rest => [] :: pieces rest
  | c :: rest =>
    match pieces rest with
    | [] => [[c]]
    | piece :: more => (c :: piece) :: more

/-- Whether a text begins with the root marker. -/
def startsRooted : List Char → Bool
  | ':' :: ':' :: _ => true
  | _ => false

/-- A name read from text: blanks around the text and around each segment
    do not count, and neither do empty segments. -/
def parse (text : String) : QualName :=
  let body := Text.trim text.toList
  { path := (((pieces body).map Text.trim).filter (· ≠ [])).map String.ofList
    rooted := startsRooted body }

/-- The name of one segment. -/
def ofIdent (i : Ident) : QualName := { path := [i] }

/-- The written form of a name. -/
def render (q : QualName) : String :=
  if q.rooted then "::" ++ q.path.render else q.path.render

/-- The name as a report shows it. -/
def shown (q : QualName) : String :=
  "QualifiedIdentifier(" ++ Text.quoted q.render ++ ")"

/-- The number of segments. -/
def length (q : QualName) : Nat := q.path.length

/-- Whether the name has no segment; the root marker alone is empty too. -/
def isEmpty (q : QualName) : Bool := q.path.isEmpty

/-- Two names are the same when their paths are. -/
def sameAs (q r : QualName) : Bool := q.path == r.path

/-- The order of two names is the order of their paths. -/
def order (q r : QualName) : Ordering := Path.order q.path r.path

/-- The name with one more segment at its end. -/
def push (q : QualName) (i : Ident) : QualName := { q with path := q.path ++ [i] }

/-- The name continued by the segments of another. -/
def join (q r : QualName) : QualName := { q with path := q.path ++ r.path }

/-- The name with or without the root marker. -/
def withRoot (q : QualName) (rooted : Bool) : QualName := { q with rooted := rooted }

/-- At most `len` segments from `start` on, all of them when no length is
    given. The root marker stays only with the first segment's place. -/
def slice (q : QualName) (start : Nat) (len : Option Nat) : QualName :=
  let start := min start q.length
  let rest := q.path.drop start
  { path := match len with
      | some n => rest.take n
      | none => rest
    rooted := start == 0 && q.rooted }

/-! ## 4. Lists of names -/

/-- The names in order; names that are equal keep the order they had. -/
def sort (names : List QualName) : List QualName :=
  names.mergeSort fun q r => (order q r).isLE

/-- The list with every run of equal neighbours cut to its first name. -/
def squeeze : List QualName → List QualName
  | [] => []
  | q :: rest =>
    match squeeze rest with
    | [] => [q]
    | r :: more => if q.sameAs r then q :: more else q :: r :: more

end QualName

end ScopeGraph
