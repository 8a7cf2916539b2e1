/-
  File:      ScopeGraph/Edit/Uses.lean
  Subject:   Uses of declarations, in the order of the text.
-/
import ScopeGraph.Workspace

namespace ScopeGraph.Edit

/-- The place a new use takes: before a given place, or before the first use
    that does not start before it. -/
def placeOfUse (uses : List Use) (range : Span) : Option Nat → Nat
  | some before => min before uses.length
  | none => uses.findIdx fun u => decide (range.start ≤ u.range.start)

/-- A new use in a context; its place. -/
def createUse (c : ContextId) (index : Nat) (range : Span) (before : Option Nat) :
    Edit Nat := do
  let data ← needContext c
  let place := placeOfUse data.uses range before
  updateContext c fun data => { data with
    uses := data.uses.take place ++ ⟨range, index⟩ :: data.uses.drop place }
  return place

/-- The use at a place changed. Answers whether there is one. -/
def changeUse (c : ContextId) (place : Nat) (f : Use → Use) : Edit Bool := do
  let data ← needContext c
  if place < data.uses.length then
    updateContext c fun data => { data with uses := data.uses.modify place f }
    return true
  else return false

/-- The use at a place moved. -/
def setUseRange (c : ContextId) (place : Nat) (range : Span) : Edit Bool :=
  changeUse c place ({ · with range := range })

/-- The use at a place made one of another declaration. -/
def setUseIndex (c : ContextId) (place : Nat) (index : Nat) : Edit Bool :=
  changeUse c place ({ · with index := index })

/-- The use at a place taken away and given back, if there is one. -/
def deleteUse (c : ContextId) (place : Nat) : Edit (Option Use) := do
  let data ← needContext c
  match data.uses[place]? with
  | some u => do
    updateContext c fun data => { data with uses := data.uses.eraseIdx place }
    return some u
  | none => return none

/-- All uses of a context taken away. -/
def deleteUses (c : ContextId) : Edit Unit := do
  let _ ← needContext c
  updateContext c ({ · with uses := [] })

end ScopeGraph.Edit
