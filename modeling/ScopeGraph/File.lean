/-
  File:      ScopeGraph/File.lean
  Subject:   Source files: their identity, their problems, their flags.
-/
import ScopeGraph.Span

namespace ScopeGraph

/-! ## 1. Identity -/

/-- The number of a file. -/
structure FileId where
  number : Nat
  deriving DecidableEq, Repr, Inhabited

/-- The file's number after a hash sign. -/
def FileId.render (f : FileId) : String := s!"file#{f.number}"

/-- The file as a report shows it. -/
def FileId.shown (f : FileId) : String := s!"FileId({f.number})"

/-- A file in one of its revisions. -/
structure FileIdentity where
  file : FileId
  revision : Nat := 0
  deriving DecidableEq, Repr, Inhabited

/-! ## 2. Problems -/

/-- How grave a problem is. -/
inductive Severity where
  | error
  | warning
  | hint
  deriving DecidableEq, Repr, Inhabited

/-- The word for a severity. -/
def Severity.word : Severity → String
  | .error => "error"
  | .warning => "warning"
  | .hint => "hint"

/-- Which stage of the analysis found a problem. -/
inductive ProblemSource where
  | unknown
  | lexer
  | parser
  | semantic
  | preprocessor
  deriving DecidableEq, Repr, Inhabited

/-- The word for a source of problems. -/
def ProblemSource.word : ProblemSource → String
  | .unknown => "unknown"
  | .lexer => "lexer"
  | .parser => "parser"
  | .semantic => "semantic"
  | .preprocessor => "preprocessor"

/-- Something wrong with a file, and where. -/
structure Problem where
  severity : Severity
  range : Span
  message : String
  source : ProblemSource := .unknown
  deriving DecidableEq, Repr, Inhabited

/-- A problem on one line: how grave, where, what. -/
def Problem.render (p : Problem) : String :=
  p.severity.word ++ " at " ++ p.range.render ++ ": " ++ p.message

/-! ## 3. Flags -/

/-- What is special about the top context of a file. -/
structure FileFlags where
  /-- The context stands for another one. -/
  proxy : Bool := false
  /-- Only a simplified set of its declarations is visible. -/
  simplified : Bool := false
  deriving DecidableEq, Repr, Inhabited

/-- The flags in the bits of a number; other bits say nothing. -/
def FileFlags.ofBits (n : Nat) : FileFlags :=
  { proxy := n.testBit 0, simplified := n.testBit 1 }

/-- The flags as bits of a number. -/
def FileFlags.toBits (f : FileFlags) : Nat := f.proxy.toNat + 2 * f.simplified.toNat

/-- The flags, if a number has no other bits. -/
def FileFlags.ofBits? (n : Nat) : Option FileFlags :=
  if n < 4 then some (ofBits n) else none

end ScopeGraph
