/-
  File:      ScopeGraph/NameTrie.lean
  Subject:   Many names at once: names that share their first segments.

  A search looks for several names together: the name that was asked for,
  and what namespace imports, namespace aliases and enclosing namespaces
  make of it. A trie holds them by their first segment; every path from the
  root of a trie to a leaf is one name (`NameTrie.names`). The root marker
  is kept at the root of a trie. A node with an empty segment adds nothing
  to the names through it.

  * `ofName`: a name as a trie of one path;
  * `under`, `underAll`: tries continued at the end of a name;
  * `graft`: tries continued at every node of another one;
  * `hasName`: whether a path is one of the names.
-/
import ScopeGraph.Name

namespace ScopeGraph

/-- A segment, the root marker, and the tries that continue it. -/
inductive NameTrie where
  | node (segment : Ident) (rooted : Bool) (next : List NameTrie)
  deriving Repr, Inhabited

namespace NameTrie

/-! ## 1. The root of a trie -/

/-- The first segment. -/
def segment : NameTrie → Ident
  | .node s _ _ => s

/-- Whether the names are meant from the root. -/
def rooted : NameTrie → Bool
  | .node _ r _ => r

/-- What continues the first segment. -/
def next : NameTrie → List NameTrie
  | .node _ _ n => n

/-- Whether the first segment is empty. -/
def isEmpty (t : NameTrie) : Bool := t.segment.isEmpty

/-- Whether something continues the first segment. -/
def hasNext (t : NameTrie) : Bool := !t.next.isEmpty

/-- The trie with its names meant from the root. -/
def fromRoot : NameTrie → NameTrie
  | .node s _ n => .node s true n

/-- The trie with one more continuation of its first segment. -/
def addNext (t other : NameTrie) : NameTrie :=
  .node t.segment t.rooted (t.next ++ [other])

/-! ## 2. Equality -/

mutual

/-- Equality of tries, markers included. -/
def same : NameTrie → NameTrie → Bool
  | .node s r n, .node s' r' n' => s == s' && r == r' && sameAll n n'

/-- Equality of lists of tries. -/
def sameAll : List NameTrie → List NameTrie → Bool
  | [], [] => true
  | t :: ts, u :: us => same t u && sameAll ts us
  | _, _ => false

end

/-! ## 3. Building -/

/-- A path with tries at its end. The empty path is a node that adds
    nothing. -/
def chain (rooted : Bool) (tail : List NameTrie) : Path → NameTrie
  | [] => .node "" rooted tail
  | [s] => .node s rooted tail
  | s :: t :: rest => .node s rooted [chain false tail (t :: rest)]

/-- A name as a trie. -/
def ofName (q : QualName) : NameTrie := chain q.rooted [] q.path

/-- Tries continued at the end of a name. -/
def underAll (q : QualName) (tail : List NameTrie) : NameTrie := chain q.rooted tail q.path

/-- A trie continued at the end of a name; the empty name changes nothing. -/
def under (q : QualName) (t : NameTrie) : NameTrie :=
  if q.isEmpty then t else underAll q [t]

mutual

/-- The tries of `others` whose names are not meant from the root, continued
    at every node of a trie. -/
def graft (others : List NameTrie) : NameTrie → NameTrie
  | .node s r n => .node s r (graftAll others n ++ others.filter (!·.rooted))

/-- Grafting onto each trie of a list. -/
def graftAll (others : List NameTrie) : List NameTrie → List NameTrie
  | [] => []
  | t :: ts => graft others t :: graftAll others ts

end

/-! ## 4. The names of a trie -/

/-- A name continued by the first segment of a trie; the trie's marker counts
    as long as the name has no segment. -/
def extend (before : QualName) (segment : Ident) (rooted : Bool) : QualName :=
  let marked := if before.isEmpty then before.withRoot rooted else before
  if segment.isEmpty then marked else marked.push segment

mutual

/-- The names of a trie, each after the segments read before. -/
def namesAfter (before : QualName) : NameTrie → List QualName
  | .node s r [] => [extend before s r]
  | .node s r (t :: ts) => namesAfterAll (extend before s r) (t :: ts)

/-- The names of several tries, one trie after the other. -/
def namesAfterAll (before : QualName) : List NameTrie → List QualName
  | [] => []
  | t :: ts => namesAfter before t ++ namesAfterAll before ts

end

/-- The names of a trie, in the order of its leaves. -/
def names (t : NameTrie) : List QualName := namesAfter {} t

/-- Whether the segments of a path lead from the first segment of a trie to
    a leaf. -/
def leadsToLeaf : Path → NameTrie → Bool
  | [], _ => false
  | s :: rest, t =>
    s == t.segment &&
      (if rest.isEmpty then t.next.isEmpty else t.next.any (leadsToLeaf rest))

/-- Whether a path is one of the names of a trie. The empty path is the name
    of a trie that is one empty node. -/
def hasName (t : NameTrie) (p : Path) : Bool :=
  if p.isEmpty then t.isEmpty && t.next.isEmpty else leadsToLeaf p t

end NameTrie

end ScopeGraph
