/-
  File:      ScopeGraph/Access.lean
  Subject:   Who may read and who may write a shared workspace.

  A workspace is shared under a lock with three kinds of holders: readers,
  one reader that may become a writer, and one writer. Readers go together
  with all but the writer; the writer goes with nobody.
-/
import ScopeGraph.Noted

namespace ScopeGraph

/-- How the workspace is held. -/
inductive Holder where
  | nobody
  | reader
  | upgradable
  | writer
  deriving DecidableEq, Repr, Inhabited

namespace Holder

/-- Whether a reader may come in beside a holder. -/
def admitsReader : Holder → Bool
  | .writer => false
  | _ => true

/-- Whether a writer may come in beside a holder. -/
def admitsWriter : Holder → Bool
  | .nobody => true
  | _ => false

/-- A try to read while the workspace is held; one that fails gives a
    warning. -/
def tryRead (h : Holder) : Noted Bool :=
  ⟨h.admitsReader, if h.admitsReader then [] else [.readTimedOut]⟩

/-- A try to write while the workspace is held; one that fails gives a
    warning. -/
def tryWrite (h : Holder) : Noted Bool :=
  ⟨h.admitsWriter, if h.admitsWriter then [] else [.writeTimedOut]⟩

end Holder

end ScopeGraph
