/-
  File:      ScopeGraph/Text/Quoted.lean
  Subject:   Text between double quotes, with unprintable characters escaped.

  The quote, the backslash and the four common control characters have short
  escapes; every other character that does not show on a page is written by
  its code point in lower-case hexadecimal without padding. An apostrophe
  is written as it is.
-/
import ScopeGraph.Text.Blank

namespace ScopeGraph.Text

/-! ## 1. Characters that do not show -/

/-- Control and format characters, separators other than the space, and
    private-use characters, both ends included. -/
def hiddenRanges : List (Nat × Nat) :=
  [(0x00, 0x1F), (0x7F, 0xA0), (0xAD, 0xAD), (0x600, 0x605), (0x61C, 0x61C),
   (0x6DD, 0x6DD), (0x70F, 0x70F), (0x890, 0x891), (0x8E2, 0x8E2),
   (0x1680, 0x1680), (0x180E, 0x180E), (0x2000, 0x200F), (0x2028, 0x202F),
   (0x205F, 0x206F), (0x3000, 0x3000), (0xE000, 0xF8FF), (0xFDD0, 0xFDEF),
   (0xFEFF, 0xFEFF), (0xFFF9, 0xFFFB), (0x110BD, 0x110BD), (0x110CD, 0x110CD),
   (0x13430, 0x1343F), (0x1BCA0, 0x1BCA3), (0x1D173, 0x1D17A),
   (0xE0001, 0xE0001), (0xE0020, 0xE007F), (0xF0000, 0x10FFFF)]

/-- A character is hidden if it is in the table or is one of the two
    noncharacters that end every plane. -/
def isHidden (c : Char) : Bool :=
  inRanges hiddenRanges c.toNat || c.toNat % 0x10000 ≥ 0xFFFE

/-! ## 2. The written form -/

/-- The code point escape of a character. -/
def codeEscape (c : Char) : List Char :=
  "\\u\x7b".toList ++ Nat.toDigits 16 c.toNat ++ "\x7d".toList

/-- How one character stands between the quotes. -/
def escapeChar (c : Char) : List Char :=
  if c = '"' then ['\\', '"']
  else if c = '\\' then ['\\', '\\']
  else if c = '\n' then ['\\', 'n']
  else if c = '\r' then ['\\', 'r']
  else if c = '\t' then ['\\', 't']
  else if c.toNat = 0 then ['\\', '0']
  else if isHidden c then codeEscape c
  else [c]

/-- The text between double quotes. -/
def quoted (text : String) : String :=
  String.ofList ('"' :: text.toList.flatMap escapeChar ++ ['"'])

end ScopeGraph.Text
