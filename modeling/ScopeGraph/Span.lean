/-
  File:      ScopeGraph/Span.lean
  Subject:   Positions in a source text and the spans between them.

  A span is half open: it holds its start and not its stop.
-/

namespace ScopeGraph

/-! ## 1. Positions -/

/-- A place in a text: a line and a column, both counted from zero. -/
structure Position where
  line : Nat := 0
  column : Nat := 0
  deriving DecidableEq, Repr, Inhabited

namespace Position

/-- Positions are ordered by line, then by column. -/
instance : Ord Position where
  compare p q := (compare p.line q.line).then (compare p.column q.column)

instance : LT Position where
  lt p q := p.line < q.line ∨ (p.line = q.line ∧ p.column < q.column)

instance : LE Position where
  le p q := p.line < q.line ∨ (p.line = q.line ∧ p.column ≤ q.column)

instance (p q : Position) : Decidable (p < q) :=
  inferInstanceAs (Decidable (_ ∨ (_ ∧ _)))

instance (p q : Position) : Decidable (p ≤ q) :=
  inferInstanceAs (Decidable (_ ∨ (_ ∧ _)))

/-- Line and column with a colon between them. -/
def render (p : Position) : String := s!"{p.line}:{p.column}"

end Position

/-! ## 2. Spans -/

/-- The text from `start` up to and without `stop`. -/
structure Span where
  start : Position := {}
  stop : Position := {}
  deriving DecidableEq, Repr, Inhabited

namespace Span

/-- Whole lines, the last one not included. -/
def lines (first last : Nat) : Span := ⟨⟨first, 0⟩, ⟨last, 0⟩⟩

/-- Whether a position lies in the span. -/
def contains (s : Span) (p : Position) : Bool := decide (s.start ≤ p ∧ p < s.stop)

/-- Whether a whole span lies in the span. -/
def encloses (s inner : Span) : Bool :=
  decide (s.start ≤ inner.start ∧ inner.stop ≤ s.stop)

/-- Whether no position lies in the span. -/
def isEmpty (s : Span) : Bool := decide (s.stop ≤ s.start)

/-- The two ends as a half-open interval. -/
def render (s : Span) : String := "[" ++ s.start.render ++ ", " ++ s.stop.render ++ ")"

end Span

/-! ## 3. Seen from a position

An optional position restricts what is seen; without one all is seen. -/

/-- Whether what starts at `start` has begun at the position looked from. -/
def seenFrom (start : Position) : Option Position → Bool
  | none => true
  | some p => decide (start ≤ p)

/-- Whether `place` lies strictly after the position looked from. -/
def isAfter (place : Position) : Option Position → Bool
  | none => false
  | some p => decide (p < place)

end ScopeGraph
