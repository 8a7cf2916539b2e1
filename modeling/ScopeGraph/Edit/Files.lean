/-
  File:      ScopeGraph/Edit/Files.lean
  Subject:   What a top context knows about its file.
-/
import ScopeGraph.Workspace

namespace ScopeGraph.Edit

/-- One more problem of a file. -/
def addProblem (t : TopId) (p : Problem) : Edit Unit := do
  let _ ← needFile t
  updateFile t fun r => { r with problems := r.problems ++ [p] }

/-- No problems of a file any more. -/
def clearProblems (t : TopId) : Edit Unit := do
  let _ ← needFile t
  updateFile t ({ · with problems := [] })

/-- The flags of a file. -/
def setFlags (t : TopId) (flags : FileFlags) : Edit Unit := do
  let _ ← needFile t
  updateFile t ({ · with flags := flags })

/-- Whether the uses of a file are known. -/
def setHasUses (t : TopId) (on : Bool) : Edit Unit := do
  let _ ← needFile t
  updateFile t ({ · with hasUses := on })

/-- The revision a file is in. -/
def setIdentity (t : TopId) (identity : FileIdentity) : Edit Unit := do
  let _ ← needFile t
  updateFile t ({ · with identity := identity })

/-- The index of a declaration in a file: the one it has, or the next one. -/
def declarationIndex (t : TopId) (d : DeclId) : Edit Nat := do
  let _ ← needDeclaration d
  let r ← needFile t
  match r.numbers.find? d with
  | some index => return index.toNat
  | none => do
    updateFile t fun r => { r with numbers := r.numbers.assign d }
    return r.numbers.next.toNat

end ScopeGraph.Edit
