/-
  File:      ScopeGraph/Text/Blank.lean
  Subject:   Blank characters, and text without blanks at its ends.

  A name may be written with blanks around its segments. What counts as
  blank is the character property White_Space; zero-width characters and
  the information separators are not in it and stay part of a name.
-/

namespace ScopeGraph.Text

/-! ## 1. The property -/

/-- The ranges of the property White_Space, both ends included. -/
def blankRanges : List (Nat × Nat) :=
  [(0x09, 0x0D), (0x20, 0x20), (0x85, 0x85), (0xA0, 0xA0), (0x1680, 0x1680),
   (0x2000, 0x200A), (0x2028, 0x2029), (0x202F, 0x202F), (0x205F, 0x205F),
   (0x3000, 0x3000)]

/-- Membership of a code point in a table of closed ranges. -/
def inRanges (table : List (Nat × Nat)) (code : Nat) : Bool :=
  table.any fun r => r.1 ≤ code && code ≤ r.2

/-- A character is blank iff it has the property White_Space. -/
def isBlank (c : Char) : Bool := inRanges blankRanges c.toNat

/-! ## 2. Trimming -/

/-- The text without the blanks it begins with. -/
def trimStart (cs : List Char) : List Char := cs.dropWhile isBlank

/-- The text without the blanks it ends with. -/
def trimEnd (cs : List Char) : List Char := (cs.reverse.dropWhile isBlank).reverse

/-- The text without the blanks at its two ends. -/
def trim (cs : List Char) : List Char := trimEnd (trimStart cs)

end ScopeGraph.Text
