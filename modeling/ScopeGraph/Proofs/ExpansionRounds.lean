/-
  File:      ScopeGraph/Proofs/ExpansionRounds.lean
  Subject:   How many rounds the expansion of names takes.

  A round can make names longer, so that the names alone do not say when no name
  is longer than the offset any more. What ends the rounds is the table: it has no
  path longer than the longest one, and at an offset past it a round leaves the
  names as they are (`Graph.expandName_past`). Under a target the rounds end at an
  offset that is fixed in advance, and targets nest up to the limit of depth only.

  `Graph.Ends` is the expansion as a loop that nothing bounds from outside: rounds
  at one offset after the other, until one finds no name longer than its offset. It
  counts the rounds, and says how deep the calls under targets nest.

  * `Graph.expandRounds_add`: rounds past the longest path do nothing;
  * `Graph.Ends.unique`: a call ends in one way only;
  * `Graph.endsUnder_expandUnder`, `Graph.ends_unset`: calls under targets end, and so
    does a call for names;
  * `Graph.expansion_ends`: in how many rounds, and with what.
-/
import ScopeGraph.Proofs.Calls
import ScopeGraph.Proofs.ImportPaths
import ScopeGraph.Proofs.Questions
import ScopeGraph.Proofs.TableEntries

namespace ScopeGraph

open Query

/-! ## 1. Rounds past the longest path -/

theorem gatherM_singletons {α : Type} {f : α → Query (List α)} {as : List α}
    (hf : ∀ a ∈ as, f a = pure [a]) : gatherM f as = pure as := by
  induction as with
  | nil => rfl
  | cons a rest ih =>
    unfold gatherM
    rw [hf a List.mem_cons_self, ih fun x hx => hf x (List.mem_cons_of_mem a hx)]
    rfl

theorem le_foldl_max (l : List Nat) (n : Nat) : n ≤ l.foldl max n ∧ ∀ x ∈ l, x ≤ l.foldl max n := by
  induction l generalizing n with
  | nil => exact ⟨Nat.le_refl n, nofun⟩
  | cons y rest ih =>
    obtain ⟨hstart, hrest⟩ := ih (max n y)
    rw [List.foldl_cons]
    refine ⟨by omega, fun x hx => ?_⟩
    rcases List.mem_cons.mp hx with rfl | hx
    · omega
    · exact hrest x hx

theorem exists_length_le (names : List Path) : ∃ bound, ∀ p ∈ names, p.length ≤ bound :=
  ⟨_, fun _ hp => (le_foldl_max (names.map List.length) 0).2 _ (List.mem_map_of_mem hp)⟩

namespace SymbolTable

theorem length_le_longestKey (t : SymbolTable) {key : Path} (h : key ∈ t.declarations.keys) :
    key.length ≤ t.longestKey :=
  (le_foldl_max _ 0).2 _ (List.mem_map_of_mem h)

theorem findDeclarations_of_longer (t : SymbolTable) {key : Path} (h : t.longestKey < key.length) :
    t.findDeclarations key = [] := by
  refine Multimap.valuesIn_of_not_mem fun hmem => ?_
  have hle := t.length_le_longestKey hmem
  omega

end SymbolTable

namespace Graph

variable (g : Graph) (top : TopId) (position : Option Position) (whole : Bool)

theorem tableAliases_of_longer {key : Path} (h : g.table.longestKey < key.length) :
    g.tableAliases top position key = pure [] := by
  unfold tableAliases
  rw [g.table.findDeclarations_of_longer h]
  rfl

/-- A name for which there are no imports and no aliases stays as it is. -/
theorem expandName_of_none {offset : Nat} {expand : Expansion} {name : Path}
    (himports : g.importExpansions top position offset expand name = pure [])
    (haliases : g.aliasExpansions top position whole offset expand name = pure none) :
    g.expandName top position whole offset expand name = pure [name] := by
  unfold expandName
  rw [himports, haliases]
  rfl

/-- An offset past the longest path leaves a name as it is. -/
theorem expandName_past {offset : Nat} (h : g.table.longestKey ≤ offset) (expand : Expansion)
    (name : Path) : g.expandName top position whole offset expand name = pure [name] := by
  have himports : g.importExpansions top position offset expand name = pure [] := by
    unfold importExpansions
    split
    · rfl
    · rw [tableAliases_of_longer]
      · rfl
      · rw [List.length_append, List.length_take, List.length_singleton]
        omega
  have haliases : g.aliasExpansions top position whole offset expand name = pure none := by
    have hbound : offset ≤ if whole then offset else offset + 1 := by
      split <;> omega
    unfold aliasExpansions
    generalize (if whole then offset else offset + 1) = bound at hbound ⊢
    split
    · rfl
    · rw [tableAliases_of_longer]
      · rfl
      · rw [List.length_take]
        omega
  exact g.expandName_of_none top position whole himports haliases

theorem expandRounds_past {offset : Nat} (h : g.table.longestKey ≤ offset)
    (expand : Nat → Expansion) (n : Nat) (names : List Path) :
    g.expandRounds top position whole expand n offset names = pure names.eraseDups := by
  induction n generalizing offset names with
  | zero => rfl
  | succ n ih =>
    unfold expandRounds
    split
    · rfl
    · rw [gatherM_singletons fun name _ => g.expandName_past top position whole h _ name, pure_bind,
        ih (by omega), eraseDups_of_nodup (nodup_eraseDups names)]

/-- **More rounds than the longest path is long do nothing.** -/
theorem expandRounds_add (expand : Nat → Expansion) {n offset : Nat}
    (h : g.table.longestKey ≤ n + offset) (more : Nat) (names : List Path) :
    g.expandRounds top position whole expand (n + more) offset names =
      g.expandRounds top position whole expand n offset names := by
  induction n generalizing offset names with
  | zero =>
    rw [expandRounds_past _ _ _ _ (by omega), expandRounds_past _ _ _ _ (by omega)]
  | succ n ih =>
    rw [Nat.succ_add]
    unfold expandRounds
    split
    · rfl
    · refine bind_congr fun found => ?_
      exact ih (by omega) _

/-- At an offset that a name is not longer than it stays as it is. -/
theorem expandName_short {offset : Nat} (expand : Expansion) {name : Path}
    (h : name.length ≤ offset) :
    g.expandName top position whole offset expand name = pure [name] := by
  have himports : g.importExpansions top position offset expand name = pure [] := if_pos h
  have haliases : g.aliasExpansions top position whole offset expand name = pure none :=
    if_pos (by split <;> omega)
  exact g.expandName_of_none top position whole himports haliases

end Graph

/-! ## 2. The loop -/

/-- A call of the expansion, before a round or at its end. -/
structure ExpansionCall where
  /-- how many targets deep the call is -/
  depth : Nat
  /-- the position that names are seen from -/
  position : Option Position
  /-- the offset of the next round -/
  offset : Nat
  /-- the offset before which the rounds end, if one is set -/
  stop : Option Nat
  names : List Path

namespace ExpansionCall

/-- The call for names. No offset is set for its rounds to end. -/
def root (position : Option Position) (names : List Path) : ExpansionCall :=
  { depth := 0, position, offset := 0, stop := none, names }

/-- The call that a round makes for a target in front of the rest of a name. -/
def under (call : ExpansionCall) (target : QualName) (rest : Path) (start : Position) :
    ExpansionCall where
  depth := call.depth + 1
  position := some start
  offset := target.length
  stop := some (call.offset + 1)
  names := [target.path ++ rest]

/-- The call after a round that has left these names. -/
def next (call : ExpansionCall) (names : List Path) : ExpansionCall :=
  { call with offset := call.offset + 1, names }

/-- The offset is set at which the rounds end, and reached. -/
def Stopped (call : ExpansionCall) : Prop := ∃ stop, call.stop = some stop ∧ stop ≤ call.offset

/-- No name is longer than the offset. -/
def Ready (call : ExpansionCall) : Prop := ∀ p ∈ call.names, p.length ≤ call.offset

theorem not_stopped (call : ExpansionCall) (h : call.stop = none) : ¬ call.Stopped := by
  simp [Stopped, h]

theorem offset_lt {call : ExpansionCall} {stop : Nat} (hset : call.stop = some stop)
    (h : ¬ call.Stopped) : call.offset < stop := by
  by_contra hle
  exact h ⟨stop, hset, Nat.not_lt.mp hle⟩

end ExpansionCall

namespace Graph

/-- One round of a call, with what becomes of targets. -/
def round (g : Graph) (top : TopId) (whole : Bool) (call : ExpansionCall) (nested : Expansion) :
    Query (List Path) :=
  gatherM (g.expandName top call.position whole call.offset nested) call.names

/-- A call ends after a number of rounds with names, warnings and a memo, where calls under
    targets nest no deeper than `nesting`. -/
inductive Ends (g : Graph) (top : TopId) (whole : Bool) :
    (nesting : Nat) → ExpansionCall → HopMemo → (rounds : Nat) →
      Noted (List Path × HopMemo) → Prop
  /-- targets nest too deep: the names stay, with a warning -/
  | tooDeep {nesting : Nat} {call : ExpansionCall} {m : HopMemo}
      (hdepth : g.limits.aliasDepth < call.depth) :
      Ends g top whole nesting call m 0 ⟨(call.names, m), [.expansionTooDeep]⟩
  /-- the offset that is set is reached -/
  | stopped {nesting : Nat} {call : ExpansionCall} {m : HopMemo}
      (hdepth : call.depth ≤ g.limits.aliasDepth) (hstop : call.Stopped) :
      Ends g top whole nesting call m 0 ⟨(call.names, m), []⟩
  /-- a round in which no name is longer than the offset -/
  | last {nesting : Nat} {call : ExpansionCall} {m : HopMemo} {nested : Expansion}
      {rounds : QualName → Path → Position → HopMemo → Nat}
      (hdepth : call.depth ≤ g.limits.aliasDepth) (hstop : ¬ call.Stopped) (hready : call.Ready)
      (hnested : ∀ target rest start m', Ends g top whole nesting (call.under target rest start) m'
        (rounds target rest start m') (nested target rest start m')) :
      Ends g top whole (nesting + 1) call m 1
        ⟨(((g.round top whole call nested).answer m).eraseDups,
            (g.round top whole call nested).memoAfter m),
          (g.round top whole call nested).warningsOf m⟩
  /-- any other round, and what follows at the next offset -/
  | more {nesting : Nat} {call : ExpansionCall} {m : HopMemo} {nested : Expansion}
      {rounds : QualName → Path → Position → HopMemo → Nat} {later : Nat}
      {result : Noted (List Path × HopMemo)}
      (hdepth : call.depth ≤ g.limits.aliasDepth) (hstop : ¬ call.Stopped) (hready : ¬ call.Ready)
      (hnested : ∀ target rest start m', Ends g top whole nesting (call.under target rest start) m'
        (rounds target rest start m') (nested target rest start m'))
      (hlater : Ends g top whole (nesting + 1)
        (call.next ((g.round top whole call nested).answer m).eraseDups)
        ((g.round top whole call nested).memoAfter m) later result) :
      Ends g top whole (nesting + 1) call m (later + 1)
        ⟨result.value, (g.round top whole call nested).warningsOf m ++ result.warnings⟩

variable {g : Graph} {top : TopId} {whole : Bool}

/-- A call ends in one way only, however deep its calls may nest. -/
theorem Ends.unique {nesting nesting' : Nat} {call : ExpansionCall} {m : HopMemo}
    {rounds rounds' : Nat} {result result' : Noted (List Path × HopMemo)}
    (h : g.Ends top whole nesting call m rounds result)
    (h' : g.Ends top whole nesting' call m rounds' result') :
    rounds = rounds' ∧ result = result' := by
  induction h generalizing nesting' rounds' result' with
  | tooDeep hdepth =>
    cases h' with
    | tooDeep => exact ⟨rfl, rfl⟩
    | stopped hdepth' | last hdepth' | more hdepth' => omega
  | stopped hdepth hstop =>
    cases h' with
    | tooDeep hdepth' => omega
    | stopped => exact ⟨rfl, rfl⟩
    | last _ hstop' | more _ hstop' => exact absurd hstop hstop'
  | @last _ call m nested _ hdepth hstop hready _ ih =>
    cases h' with
    | tooDeep hdepth' => omega
    | stopped _ hstop' => exact absurd hstop' hstop
    | @last _ _ _ nested' _ _ _ _ hnested' =>
      have hsame : nested = nested' := by
        funext target rest start m'
        exact (ih target rest start m' (hnested' target rest start m')).2
      rw [hsame]
      exact ⟨rfl, rfl⟩
    | more _ _ hready' => exact absurd hready hready'
  | @more _ call m nested _ _ _ hdepth hstop hready _ _ ih ihlater =>
    cases h' with
    | tooDeep hdepth' => omega
    | stopped _ hstop' => exact absurd hstop' hstop
    | last _ _ hready' => exact absurd hready' hready
    | @more _ _ _ nested' _ _ _ _ _ _ hnested' hlater' =>
      have hsame : nested = nested' := by
        funext target rest start m'
        exact (ih target rest start m' (hnested' target rest start m')).2
      subst hsame
      obtain ⟨rfl, rfl⟩ := ihlater hlater'
      exact ⟨rfl, rfl⟩

/-- Rounds end at the offset that is set. -/
theorem Ends.rounds_le {nesting : Nat} {call : ExpansionCall} {m : HopMemo} {rounds stop : Nat}
    {result : Noted (List Path × HopMemo)} (h : g.Ends top whole nesting call m rounds result)
    (hset : call.stop = some stop) : rounds ≤ stop - call.offset := by
  induction h with
  | tooDeep | stopped => exact Nat.zero_le _
  | last _ hstop =>
    have hlt := ExpansionCall.offset_lt hset hstop
    omega
  | more _ hstop _ _ _ _ ih =>
    have hlt := ExpansionCall.offset_lt hset hstop
    have hlater := ih hset
    simp only [ExpansionCall.next] at hlater
    omega

/-! ## 3. Every call ends -/

/-- Whatever a round of a call this deep makes of a target, it is what the call under the
    target ends with. -/
def EndsUnder (g : Graph) (top : TopId) (whole : Bool) (nesting depth : Nat)
    (expand : Nat → Expansion) : Prop :=
  ∀ call : ExpansionCall, call.depth = depth → ∀ target rest start m, ∃ rounds,
    g.Ends top whole nesting (call.under target rest start) m rounds
      (expand call.offset target rest start m)

theorem round_past {call : ExpansionCall} (h : g.table.longestKey ≤ call.offset)
    (nested : Expansion) : g.round top whole call nested = pure call.names :=
  gatherM_singletons fun name _ => g.expandName_past _ _ _ h nested name

theorem round_of_ready {call : ExpansionCall} (h : call.Ready) (nested : Expansion) :
    g.round top whole call nested = pure call.names :=
  gatherM_singletons fun name hname => g.expandName_short _ _ _ nested (h name hname)

section Existence

variable {nesting depth : Nat} (hdepth : depth ≤ g.limits.aliasDepth) {expand : Nat → Expansion}
  (hexpand : g.EndsUnder top whole nesting depth expand)

include hdepth hexpand

theorem ends_of_ready {call : ExpansionCall} (hcall : call.depth = depth) (hstop : ¬ call.Stopped)
    (hready : call.Ready) (m : HopMemo) :
    g.Ends top whole (nesting + 1) call m 1 ⟨(call.names.eraseDups, m), []⟩ := by
  choose rounds hnested using hexpand call hcall
  have h := Ends.last (m := m) (hcall ▸ hdepth) hstop hready hnested
  rwa [round_of_ready hready] at h

/-- A round that is not the last one, and what follows. -/
theorem ends_of_next {call : ExpansionCall} (hcall : call.depth = depth) (hstop : ¬ call.Stopped)
    (hready : ¬ call.Ready) {q : Query (List Path)}
    (hround : g.round top whole call (expand call.offset) = q) {m : HopMemo} {later : Nat}
    {result : Noted (List Path × HopMemo)}
    (hlater : g.Ends top whole (nesting + 1) (call.next (q.answer m).eraseDups) (q.memoAfter m)
      later result) :
    g.Ends top whole (nesting + 1) call m (later + 1)
      ⟨result.value, q.warningsOf m ++ result.warnings⟩ := by
  choose rounds hnested using hexpand call hcall
  subst hround
  exact .more (hcall ▸ hdepth) hstop hready hnested hlater

/-- Rounds up to an offset that is set end, with what as many rounds make of the names. -/
theorem ends_expandRounds {n stop : Nat} {call : ExpansionCall} (hcall : call.depth = depth)
    (hset : call.stop = some stop) (hn : stop - call.offset = n) (hnames : call.names.Nodup)
    (m : HopMemo) :
    ∃ rounds, g.Ends top whole (nesting + 1) call m rounds
      (g.expandRounds top call.position whole expand n call.offset call.names m) := by
  induction n generalizing call m with
  | zero =>
    have hdone : g.expandRounds top call.position whole expand 0 call.offset call.names m =
        ⟨(call.names, m), []⟩ := by
      unfold expandRounds
      rw [eraseDups_of_nodup hnames]
      rfl
    rw [hdone]
    exact ⟨0, .stopped (hcall ▸ hdepth) ⟨stop, hset, by omega⟩⟩
  | succ n ih =>
    have hopen : ¬ call.Stopped := by
      intro hstopped
      obtain ⟨stop', hset', hle⟩ := hstopped
      cases hset.symm.trans hset'
      omega
    unfold expandRounds
    by_cases hready : call.Ready
    · rw [if_pos (by simpa [ExpansionCall.Ready] using hready)]
      exact ⟨1, ends_of_ready hdepth hexpand hcall hopen hready m⟩
    · rw [if_neg (by simpa [ExpansionCall.Ready] using hready)]
      have hn' : stop - (call.offset + 1) = n := by omega
      have hnext := @ih
        (call.next ((g.round top whole call (expand call.offset)).answer m).eraseDups)
        hcall hset hn' (nodup_eraseDups _)
      obtain ⟨later, hlater⟩ := hnext ((g.round top whole call (expand call.offset)).memoAfter m)
      exact ⟨later + 1, ends_of_next hdepth hexpand hcall hopen hready rfl hlater⟩

/-- The last round of a call with no offset set. -/
theorem ends_of_ready_unset {call : ExpansionCall} (hcall : call.depth = depth)
    (hset : call.stop = none) (hready : call.Ready) (m : HopMemo) :
    ∃ rounds, g.Ends top whole (nesting + 1) call m rounds ⟨(call.names.eraseDups, m), []⟩ ∧
      ∀ bound, call.offset ≤ bound → call.offset + rounds ≤ bound + 1 := by
  refine ⟨1, ends_of_ready hdepth hexpand hcall (call.not_stopped hset) hready m, ?_⟩
  intro bound hbound
  omega

/-- Past the longest path a call ends: the names stay, and the offset grows. -/
theorem ends_past {extra : Nat} {call : ExpansionCall} (hcall : call.depth = depth)
    (hset : call.stop = none) (hpast : g.table.longestKey ≤ call.offset)
    (hextra : ∀ p ∈ call.names, p.length ≤ call.offset + extra) (m : HopMemo) :
    ∃ rounds, g.Ends top whole (nesting + 1) call m rounds ⟨(call.names.eraseDups, m), []⟩ ∧
      ∀ bound, call.offset ≤ bound → (∀ p ∈ call.names, p.length ≤ bound) →
        call.offset + rounds ≤ bound + 1 := by
  induction extra generalizing call with
  | zero =>
    obtain ⟨rounds, hends, hbound⟩ := ends_of_ready_unset hdepth hexpand hcall hset hextra m
    exact ⟨rounds, hends, fun bound hle _ => hbound bound hle⟩
  | succ extra ih =>
    by_cases hready : call.Ready
    · obtain ⟨rounds, hends, hbound⟩ := ends_of_ready_unset hdepth hexpand hcall hset hready m
      exact ⟨rounds, hends, fun bound hle _ => hbound bound hle⟩
    · have hextra' : ∀ p ∈ call.names.eraseDups, p.length ≤ call.offset + 1 + extra := by
        intro p hp
        have hlength := hextra p (List.mem_eraseDups.mp hp)
        omega
      obtain ⟨later, hlater, hbound⟩ := @ih (call.next call.names.eraseDups) hcall hset
        (Nat.le_succ_of_le hpast) hextra'
      have hstep := ends_of_next hdepth hexpand hcall (call.not_stopped hset) hready
        (round_past hpast _) hlater
      rw [ExpansionCall.next, eraseDups_of_nodup (nodup_eraseDups _)] at hstep
      refine ⟨later + 1, hstep, fun bound _ hlength => ?_⟩
      obtain ⟨p, hp, hlong⟩ : ∃ p ∈ call.names, call.offset < p.length := by
        simpa [ExpansionCall.Ready] using hready
      have hoffset := hbound bound (Nat.lt_of_lt_of_le hlong (hlength p hp))
        fun q hq => hlength q (List.mem_eraseDups.mp hq)
      simp only [ExpansionCall.next] at hoffset
      omega

/-- A call with no offset set ends, with what the rounds up to the longest path make of the
    names. -/
theorem ends_unset {n : Nat} {call : ExpansionCall} (hcall : call.depth = depth)
    (hset : call.stop = none) (hn : call.offset + n = g.table.longestKey) (m : HopMemo) :
    ∃ rounds, g.Ends top whole (nesting + 1) call m rounds
        (g.expandRounds top call.position whole expand n call.offset call.names m) ∧
      ∀ bound, g.table.longestKey ≤ bound →
        (∀ p ∈ (g.expandRounds top call.position whole expand n call.offset call.names).answer m,
          p.length ≤ bound) →
        call.offset + rounds ≤ bound + 1 := by
  induction n generalizing call m with
  | zero =>
    obtain ⟨longest, hlongest⟩ := exists_length_le call.names
    obtain ⟨rounds, hends, hbound⟩ := ends_past hdepth hexpand hcall hset (Nat.le_of_eq hn.symm)
      (fun p hp => Nat.le_trans (hlongest p hp) (Nat.le_add_left _ _)) m
    refine ⟨rounds, hends, fun bound hle hlength => hbound bound (by omega) fun p hp => ?_⟩
    exact hlength p (List.mem_eraseDups.mpr hp)
  | succ n ih =>
    unfold expandRounds
    by_cases hready : call.Ready
    · rw [if_pos (by simpa [ExpansionCall.Ready] using hready)]
      obtain ⟨rounds, hends, hbound⟩ := ends_of_ready_unset hdepth hexpand hcall hset hready m
      exact ⟨rounds, hends, fun bound hle _ => hbound bound (by omega)⟩
    · rw [if_neg (by simpa [ExpansionCall.Ready] using hready)]
      have hn' : call.offset + 1 + n = g.table.longestKey := by omega
      have hnext := @ih
        (call.next ((g.round top whole call (expand call.offset)).answer m).eraseDups)
        hcall hset hn'
      obtain ⟨later, hlater, hbound⟩ :=
        hnext ((g.round top whole call (expand call.offset)).memoAfter m)
      have hstep := ends_of_next hdepth hexpand hcall (call.not_stopped hset) hready rfl hlater
      refine ⟨later + 1, hstep, fun bound hle hlength => ?_⟩
      have hoffset := hbound bound hle hlength
      simp only [ExpansionCall.next] at hoffset
      omega

end Existence

/-- Calls under targets end, and nest until the limit of depth is reached. -/
theorem endsUnder_expandUnder {n depth : Nat} (h : depth + n = g.limits.aliasDepth) :
    g.EndsUnder top whole n depth (g.expandUnder top whole n) := by
  induction n generalizing depth with
  | zero =>
    intro call hcall target rest start m
    refine ⟨0, .tooDeep ?_⟩
    simp only [ExpansionCall.under]
    omega
  | succ n ih =>
    intro call hcall target rest start m
    have hunder : g.EndsUnder top whole n (depth + 1) (g.expandUnder top whole n) := ih (by omega)
    have hdeep : (call.under target rest start).depth = depth + 1 := congrArg (· + 1) hcall
    exact ends_expandRounds (by omega) hunder hdeep rfl rfl (List.nodup_singleton _) m

/-- **The expansion of names ends.** At an offset as large as the longest path is long, or
    larger, a round leaves the names of a call as they are. So the call for names ends, with
    the names that the expansion gives, the last of its rounds no later than at the first
    offset that is as large as the longest path and as the names there are after the round
    at that offset. A call under a target has no more rounds than there are offsets from the
    length of the target up to the one at which it was found, and such calls nest one deeper
    than the limit of depth says. No call ends in two ways. -/
theorem expansion_ends (g : Graph) (top : TopId) (position : Option Position) (whole : Bool)
    (names : List Path) (m : HopMemo) :
    (∀ (call : ExpansionCall) (nested : Expansion), g.table.longestKey ≤ call.offset →
      g.round top whole call nested = pure call.names) ∧
    (∃ rounds, g.Ends top whole (g.limits.aliasDepth + 1) (.root position names) m rounds
        (g.expandNames top position whole names m) ∧
      ∀ bound, g.table.longestKey ≤ bound →
        (∀ p ∈ (g.expandRounds top position whole (g.expandUnder top whole g.limits.aliasDepth)
          (g.table.longestKey + 1) 0 names).answer m, p.length ≤ bound) →
        rounds ≤ bound + 1) ∧
    (∀ (nesting : Nat) (call : ExpansionCall) (target : QualName) (rest : Path) (start : Position)
        (m' : HopMemo) (rounds : Nat) (result : Noted (List Path × HopMemo)),
      g.Ends top whole nesting (call.under target rest start) m' rounds result →
        rounds ≤ call.offset + 1 - target.length) ∧
    ∀ (nesting nesting' : Nat) (call : ExpansionCall) (m' : HopMemo) (rounds rounds' : Nat)
        (result result' : Noted (List Path × HopMemo)),
      g.Ends top whole nesting call m' rounds result →
      g.Ends top whole nesting' call m' rounds' result' → rounds = rounds' ∧ result = result' := by
  refine ⟨fun call nested h => round_past h nested, ?_,
    fun _ _ _ _ _ _ _ _ h => h.rounds_le rfl, fun _ _ _ _ _ _ _ _ h h' => h.unique h'⟩
  have hunder : g.EndsUnder top whole g.limits.aliasDepth 0
      (g.expandUnder top whole g.limits.aliasDepth) := endsUnder_expandUnder (Nat.zero_add _)
  have hroot : (ExpansionCall.root position names).depth = 0 := rfl
  obtain ⟨rounds, hends, hbound⟩ := ends_unset (Nat.zero_le _) hunder hroot rfl (Nat.zero_add _) m
  refine ⟨rounds, hends, fun bound hle hlength => ?_⟩
  rw [expandRounds_add _ _ _ _ _ (Nat.le_refl _)] at hlength
  have hoffset := hbound bound hle hlength
  simpa [ExpansionCall.root] using hoffset

end Graph

namespace Workspace

/-- A registered file with a namespace `A` that imports itself, and with an alias `B` for
    `B::B`. -/
def selfImporting : List Call :=
  [.change (.createTop ⟨0⟩ (.lines 0 90)), .change (.createContext ⟨0, 0⟩ (.lines 1 10)),
    .change (.setKind ⟨1, 0⟩ .nameSpace), .change (.setScopeName ⟨1, 0⟩ { path := ["A"] }),
    .change (.declare ⟨1, 0⟩ .globalImport (.lines 2 3) (.namespaceAlias { path := ["A"] })),
    .change (.declare ⟨0, 0⟩ "B" (.lines 20 21) (.namespaceAlias { path := ["B", "B"] })),
    .change (.register ⟨⟨0, 0⟩⟩)]

/-- The import of `A` into `A` is followed until the limit of depth cuts it off, and `B::x`
    grows. The longest path has two segments and the longest name three in the end, so that
    there are four rounds at most. -/
theorem expansion_ends_selfImporting :
    let w := (empty { aliasDepth := 1 }).run selfImporting
    let expanded := w.graph.expandNames ⟨⟨0, 0⟩⟩ none false [["A", "x"], ["B", "x"]]
    expanded.answer w.memo = [["A", "x"], ["B", "B", "x"]] ∧
      expanded.warningsOf w.memo = [.expansionTooDeep] ∧
      ∃ rounds ≤ 4, w.graph.Ends ⟨⟨0, 0⟩⟩ false 2 (.root none [["A", "x"], ["B", "x"]]) w.memo
        rounds (expanded w.memo) := by
  intro w expanded
  obtain ⟨_, ⟨rounds, hends, hbound⟩, _⟩ :=
    Graph.expansion_ends w.graph ⟨⟨0, 0⟩⟩ none false [["A", "x"], ["B", "x"]] w.memo
  exact ⟨by decide +kernel, by decide +kernel, rounds,
    hbound 3 (by decide +kernel) (by decide +kernel), hends⟩

end Workspace

end ScopeGraph
