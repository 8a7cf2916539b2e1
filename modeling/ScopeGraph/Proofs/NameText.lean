/-
  File:      ScopeGraph/Proofs/NameText.lean
  Subject:   Qualified names as text: reading a name undoes writing it.

  A name is written with the mark `::` between its segments, and in front of them if
  it is meant from the root. A text is read by cutting it at its marks, the leftmost
  first, so a segment may hold single colons and even begin with one, but where it
  ends in a colon the cut is made too early.

  * `Text.Trimmed`: no blank stands at the ends of a text;
  * `pieces_join`: texts that hold no mark and do not end in a colon are the pieces of
    what they are joined to;
  * `QualName.Whole`: what every segment of a name that was read is like;
  * `QualName.parse_render`: the two directions.
-/
import Mathlib.Data.List.DropRight
import Mathlib.Data.List.Infix
import ScopeGraph.Name

namespace ScopeGraph

/-! ## 1. Blanks at the ends -/

namespace Text

/-- No blank stands at the beginning of a text and none at its end. -/
def Trimmed (cs : List Char) : Prop :=
  cs.head?.any isBlank = false ∧ cs.getLast?.any isBlank = false

instance (cs : List Char) : Decidable (Trimmed cs) :=
  inferInstanceAs (Decidable (cs.head?.any isBlank = false ∧ cs.getLast?.any isBlank = false))

variable {cs : List Char}

theorem any_head?_trimStart (cs : List Char) : (trimStart cs).head?.any isBlank = false := by
  have hhead := List.head?_dropWhile_not isBlank cs
  unfold trimStart
  cases h : (cs.dropWhile isBlank).head? with
  | none => rfl
  | some c =>
    rw [h] at hhead
    simpa using hhead

theorem getLast?_trimEnd (cs : List Char) : (trimEnd cs).getLast? = (trimStart cs.reverse).head? :=
  List.getLast?_reverse

theorem trimStart_eq_self (h : cs.head?.any isBlank = false) : trimStart cs = cs := by
  cases cs with
  | nil => rfl
  | cons c rest =>
    have hc : isBlank c = false := by simpa using h
    simp [trimStart, hc]

theorem trimEnd_eq_self (h : cs.getLast?.any isBlank = false) : trimEnd cs = cs := by
  have hreverse : trimStart cs.reverse = cs.reverse :=
    trimStart_eq_self (by rw [List.head?_reverse]; exact h)
  unfold trimEnd
  unfold trimStart at hreverse
  rw [hreverse, List.reverse_reverse]

/-- Trimming leaves a trimmed text as it is. -/
theorem Trimmed.trim_eq (h : Trimmed cs) : trim cs = cs := by
  unfold trim
  rw [trimStart_eq_self h.1, trimEnd_eq_self h.2]

theorem isPrefix_trimEnd (cs : List Char) : trimEnd cs <+: cs := List.rdropWhile_prefix isBlank cs

/-- What is left of a text is a part of it. -/
theorem isInfix_trim (cs : List Char) : trim cs <:+: cs :=
  (isPrefix_trimEnd _).isInfix.trans (List.dropWhile_suffix isBlank).isInfix

theorem trimmed_trim (cs : List Char) : Trimmed (trim cs) := by
  constructor
  · have hstart := any_head?_trimStart cs
    unfold trim
    cases h : trimEnd (trimStart cs) with
    | nil => rfl
    | cons c rest =>
      -- the first character is that of the text before its end was cut
      have hprefix := isPrefix_trimEnd (trimStart cs)
      rw [h] at hprefix
      obtain ⟨more, hmore⟩ := hprefix
      rw [← hmore] at hstart
      exact hstart
  · unfold trim
    rw [getLast?_trimEnd]
    exact any_head?_trimStart _

theorem Trimmed.append {a b : List Char} (ha : Trimmed a) (hb : Trimmed b) : Trimmed (a ++ b) := by
  cases a with
  | nil => exact hb
  | cons c a =>
    refine ⟨ha.1, ?_⟩
    cases b with
    | nil =>
      rw [List.append_nil]
      exact ha.2
    | cons c' b =>
      rw [List.getLast?_append_of_ne_nil _ (List.cons_ne_nil c' b)]
      exact hb.2

end Text

/-! ## 2. Marks -/

namespace QualName

open Text

/-- What stands between two segments, and before all of them in a name that is meant
    from the root. -/
def mark : List Char := [':', ':']

variable {c : Char} {cs rest piece : List Char} {more : List (List Char)}

theorem pieces_mark (rest : List Char) : pieces (mark ++ rest) = [] :: pieces rest := by
  show pieces (':' :: ':' :: rest) = _
  rw [pieces]

/-- A character at which no mark begins belongs to the first piece. -/
theorem pieces_cons (h : ¬ mark <+: c :: rest) : ∃ piece more,
    pieces rest = piece :: more ∧ pieces (c :: rest) = (c :: piece) :: more := by
  have hne : pieces rest ≠ [] := by
    fun_cases pieces rest <;> simp_all
  obtain ⟨piece, more, hrest⟩ := List.exists_cons_of_ne_nil hne
  refine ⟨piece, more, hrest, ?_⟩
  rw [pieces, hrest]
  rintro rest' rfl rfl
  exact h ⟨rest', rfl⟩

/-- A text without a mark is one piece. -/
theorem pieces_of_unmarked (h : ¬ mark <:+: cs) : pieces cs = [cs] := by
  induction cs with
  | nil => rfl
  | cons c rest ih =>
    rw [List.infix_cons_iff, not_or] at h
    obtain ⟨piece, more, hrest, heq⟩ := pieces_cons h.1
    rw [ih h.2] at hrest
    cases hrest
    exact heq

/-- **The first mark divides**: a text without a mark, in front of one, is the first
    piece, unless it ends in a colon. -/
theorem pieces_append_mark (h : ¬ mark <:+: cs) (hlast : cs.getLast? ≠ some ':')
    (rest : List Char) : pieces (cs ++ mark ++ rest) = cs :: pieces rest := by
  induction cs with
  | nil => exact pieces_mark rest
  | cons c cs ih =>
    rw [List.infix_cons_iff, not_or] at h
    have hfirst : ¬ mark <+: c :: (cs ++ mark ++ rest) := by
      intro hmark
      cases cs with
      | nil =>
        obtain ⟨hc, -⟩ := List.cons_prefix_cons.mp hmark
        exact hlast (by rw [← hc]; rfl)
      | cons c' cs =>
        apply h.1
        obtain ⟨hc, hmark⟩ := List.cons_prefix_cons.mp hmark
        obtain ⟨hc', -⟩ := List.cons_prefix_cons.mp hmark
        exact ⟨cs, by rw [← hc, ← hc']; rfl⟩
    have hlast' : cs.getLast? ≠ some ':' := by
      intro hcs
      apply hlast
      rw [List.getLast?_cons, hcs]
      rfl
    obtain ⟨piece, more, hrest, heq⟩ := pieces_cons hfirst
    rw [ih h.2 hlast'] at hrest
    cases hrest
    exact heq

theorem prefix_of_pieces (h : pieces cs = piece :: more) : piece <+: cs := by
  induction cs generalizing piece more with
  | nil =>
    cases h
    exact List.prefix_rfl
  | cons c rest ih =>
    by_cases hmark : mark <+: c :: rest
    · obtain ⟨rest', he⟩ := hmark
      rw [← he, pieces_mark] at h
      cases h
      exact List.nil_prefix
    · obtain ⟨first, others, hrest, heq⟩ := pieces_cons hmark
      rw [heq] at h
      cases h
      exact List.cons_prefix_cons.mpr ⟨rfl, ih hrest⟩

/-- **No piece of a text holds a mark.** -/
theorem unmarked_pieces (cs : List Char) : ∀ piece ∈ pieces cs, ¬ mark <:+: piece := by
  fun_induction pieces cs with
  | case1 => simp [mark]
  | case2 rest ih => simpa [mark] using ih
  | case3 c rest hmark hnil ih =>
    intro piece hpiece hinfix
    rw [List.mem_singleton.mp hpiece] at hinfix
    exact absurd hinfix.length_le (Nat.not_succ_le_self 1)
  | case4 c rest hmark first more hrest ih =>
    rw [hrest, List.forall_mem_cons] at ih
    refine List.forall_mem_cons.mpr ⟨?_, ih.2⟩
    rw [List.infix_cons_iff, not_or]
    refine ⟨fun hfirst => ?_, ih.1⟩
    -- where a mark begins in the piece it begins in the text, which goes on like the piece
    obtain ⟨rest', he⟩ := hfirst.trans (List.cons_prefix_cons.mpr ⟨rfl, prefix_of_pieces hrest⟩)
    obtain ⟨hc, he⟩ := List.cons.inj he
    exact hmark rest' hc.symm he.symm

theorem startsRooted_iff : startsRooted cs = true ↔ mark <+: cs := by
  constructor
  · intro h
    unfold startsRooted at h
    split at h
    · next rest => exact ⟨rest, rfl⟩
    · cases h
  · rintro ⟨rest, rfl⟩
    rfl

/-! ## 3. Segments -/

/-- A segment as it is read: not empty, without blanks at its ends, and without a
    mark. -/
structure Whole (s : List Char) : Prop where
  nonempty : s ≠ []
  trimmed : Trimmed s
  unmarked : ¬ mark <:+: s

instance (s : List Char) : Decidable (Whole s) :=
  decidable_of_iff (s ≠ [] ∧ Trimmed s ∧ ¬ mark <:+: s)
    ⟨fun h => ⟨h.1, h.2.1, h.2.2⟩, fun h => ⟨h.nonempty, h.trimmed, h.unmarked⟩⟩

variable {segments : List (List Char)}

/-- Segments that are joined have no blanks at the ends either. -/
theorem trimmed_join (h : ∀ s ∈ segments, Whole s) : Trimmed (mark.intercalate segments) := by
  induction segments with
  | nil => decide
  | cons s rest ih =>
    obtain ⟨hs, hrest⟩ := List.forall_mem_cons.mp h
    cases rest with
    | nil =>
      rw [List.intercalate_singleton]
      exact hs.trimmed
    | cons s' rest =>
      have hmark : Trimmed mark := by decide
      rw [List.intercalate_cons_cons]
      exact (hs.trimmed.append hmark).append (ih hrest)

/-- **Cutting undoes joining**, where no segment holds a mark or ends in a colon. -/
theorem pieces_join (hne : segments ≠ []) (h : ∀ s ∈ segments, Whole s ∧ s.getLast? ≠ some ':') :
    pieces (mark.intercalate segments) = segments := by
  induction segments with
  | nil => exact absurd rfl hne
  | cons s rest ih =>
    obtain ⟨hs, hrest⟩ := List.forall_mem_cons.mp h
    cases rest with
    | nil =>
      rw [List.intercalate_singleton]
      exact pieces_of_unmarked hs.1.unmarked
    | cons s' rest =>
      rw [List.intercalate_cons_cons, pieces_append_mark hs.1.unmarked hs.2,
        ih (List.cons_ne_nil s' rest) hrest]

/-- The segments in a text, as they are read: pieces without the blanks around them, and
    no empty ones. -/
def segmentsIn (text : List Char) : List (List Char) :=
  ((pieces text).map trim).filter (· ≠ [])

theorem segmentsIn_mark (text : List Char) : segmentsIn (mark ++ text) = segmentsIn text := by
  unfold segmentsIn
  rw [pieces_mark]
  rfl

theorem segmentsIn_join (h : ∀ s ∈ segments, Whole s ∧ s.getLast? ≠ some ':') :
    segmentsIn (mark.intercalate segments) = segments := by
  by_cases hne : segments = []
  · rw [hne]
    rfl
  · have htrim : segments.map trim = segments := by
      rw [List.map_congr_left fun s hs => (h s hs).1.trimmed.trim_eq, List.map_id']
    rw [segmentsIn, pieces_join hne h, htrim, List.filter_eq_self]
    intro s hs
    simpa using (h s hs).1.nonempty

/-- **What is read in a text is whole.** -/
theorem whole_segmentsIn (text : List Char) : ∀ s ∈ segmentsIn text, Whole s := by
  intro s hs
  obtain ⟨hmem, hne⟩ := List.mem_filter.mp hs
  obtain ⟨piece, hpiece, rfl⟩ := List.mem_map.mp hmem
  exact ⟨by simpa using hne, trimmed_trim piece,
    fun hmark => unmarked_pieces text piece hpiece (hmark.trans (isInfix_trim piece))⟩

/-- Joined segments do not begin with a mark: their first piece is the first of them, and
    that is not empty. -/
theorem startsRooted_join (h : ∀ s ∈ segments, Whole s ∧ s.getLast? ≠ some ':') :
    startsRooted (mark.intercalate segments) = false := by
  rw [Bool.eq_false_iff, ne_eq, startsRooted_iff]
  rintro ⟨rest, hrest⟩
  by_cases hne : segments = []
  · rw [hne] at hrest
    cases hrest
  · have hpieces := pieces_join hne h
    rw [← hrest, pieces_mark] at hpieces
    have hmem : [] ∈ segments := by
      rw [← hpieces]
      exact List.mem_cons_self
    exact (h [] hmem).1.nonempty rfl

/-! ## 4. Reading and writing -/

/-- The characters of a written name. -/
theorem toList_render (q : QualName) : q.render.toList =
    (if q.rooted then mark else []) ++ mark.intercalate (q.path.map String.toList) := by
  unfold render Path.render
  split
  · rw [String.toList_append, String.toList_intercalate]
    rfl
  · rw [String.toList_intercalate]
    rfl

theorem parse_eq (text : String) : parse text =
    { path := (segmentsIn (trim text.toList)).map String.ofList
      rooted := startsRooted (trim text.toList) } := rfl

/-- **Reading undoes writing.** A name whose segments are whole and do not end in a colon
    is read as it was written, with its root marker, and so is the empty name; and whatever
    text is read, the segments are whole. -/
theorem parse_render :
    (∀ q : QualName, (∀ s ∈ q.path, Whole s.toList ∧ s.toList.getLast? ≠ some ':') →
      parse q.render = q) ∧
    ∀ text : String, ∀ s ∈ (parse text).path, Whole s.toList := by
  constructor
  · intro q hq
    let segments := q.path.map String.toList
    have hsegments : ∀ s ∈ segments, Whole s ∧ s.getLast? ≠ some ':' := by
      intro s hs
      obtain ⟨i, hi, rfl⟩ := List.mem_map.mp hs
      exact hq i hi
    have hjoin := trimmed_join fun s hs => (hsegments s hs).1
    have hpath : segments.map String.ofList = q.path := by
      simp [segments, Function.comp_def]
    cases q with
    | mk path rooted =>
      rw [parse_eq, toList_render]
      cases rooted with
      | false =>
        rw [if_neg Bool.false_ne_true, List.nil_append, hjoin.trim_eq, segmentsIn_join hsegments,
          startsRooted_join hsegments, hpath]
      | true =>
        have hmark : Trimmed mark := by decide
        rw [if_pos rfl, (hmark.append hjoin).trim_eq, segmentsIn_mark, segmentsIn_join hsegments,
          hpath]
        rfl
  · intro text s hs
    rw [parse_eq] at hs
    obtain ⟨cs, hcs, rfl⟩ := List.mem_map.mp hs
    rw [String.toList_ofList]
    exact whole_segmentsIn _ cs hcs

/-- Of three colons in a row the first two are a mark, and the third begins a segment. A
    segment that ends in a colon is read where a blank stands before the next mark. -/
theorem parse_render_colons :
    (∀ s ∈ [":a b", ":c"], Whole s.toList ∧ s.toList.getLast? ≠ some ':') ∧
    render ⟨[":a b", ":c"], true⟩ = ":::a b:::c" ∧ parse ":::a b:::c" = ⟨[":a b", ":c"], true⟩ ∧
    "a:" ∈ (parse " a: :: :::b ").path ∧ Whole "a:".toList := by
  have hwhole : ∀ s ∈ [":a b", ":c"], Whole s.toList ∧ s.toList.getLast? ≠ some ':' := by decide
  have hrender : render ⟨[":a b", ":c"], true⟩ = ":::a b:::c" := by decide
  have hread : "a:" ∈ (parse " a: :: :::b ").path := by decide
  refine ⟨hwhole, hrender, ?_, hread, parse_render.2 _ _ hread⟩
  rw [← hrender]
  exact parse_render.1 _ hwhole

end QualName

end ScopeGraph
