/-
  File:      ScopeGraph/Search/Flags.lean
  Subject:   What a search looks for, and how far it goes.
-/
import ScopeGraph.Declaration

namespace ScopeGraph

/-- How a search is restricted. -/
structure SearchFlags where
  /-- Only functions count. -/
  onlyFunctions : Bool := false
  /-- The search does not go on in the parent. -/
  skipParents : Bool := false
  /-- The search is inside an imported context, and so does not go on in the
      parent either. -/
  imported : Bool := false
  deriving DecidableEq, Repr, Inhabited

namespace SearchFlags

/-- The flags in the bits of a number; other bits say nothing. -/
def ofBits (n : Nat) : SearchFlags :=
  { onlyFunctions := n.testBit 0, skipParents := n.testBit 1, imported := n.testBit 2 }

/-- The flags as bits of a number. -/
def toBits (f : SearchFlags) : Nat :=
  f.onlyFunctions.toNat + 2 * f.skipParents.toNat + 4 * f.imported.toNat

/-- The flags, if a number has no other bits. -/
def ofBits? (n : Nat) : Option SearchFlags := if n < 8 then some (ofBits n) else none

/-- Whether the search may go on in the parent. -/
def climbs (f : SearchFlags) : Bool := !f.skipParents && !f.imported

end SearchFlags

/-- Which declarations a search takes. -/
structure DeclFilter where
  type : Option TypeId := none
  onlyFunctions : Bool := false
  deriving DecidableEq, Repr, Inhabited

/-- Whether a declaration is a function if it has to be, and of the type
    asked for if one is. -/
def DeclFilter.accepts (f : DeclFilter) (data : Declaration) : Bool :=
  (!f.onlyFunctions || data.kind.isFunction) &&
    (f.type.isNone || decide (data.type = f.type))

end ScopeGraph
