/-
  File:      ScopeGraph/Proofs/StoreHistory.lean
  Subject:   What a store answers, said by the calls that led to it.

  A store is changed by two calls: a node comes in, or the node of a handle goes. The
  handle may be any, also one that was never given out. What a handle names is then said
  without slots and generations: the node that came in under it, until the handle is
  erased, and nothing before or after.

  * `Store.HandsOut`: a call of a sequence puts a node in and gives a handle for it;
  * `Store.Standing`: the handle was given for the node, and not erased since;
  * `Store.Recorded.step`: one call keeps the account in step with the store;
  * `Store.history_exact`: so it is after every sequence of calls that frees no slot
    `2 ^ 32` times.
-/
import ScopeGraph.Proofs.Handles

namespace ScopeGraph

/-! ## 1. Calls -/

/-- A change of a store: a node comes in, or the node of a handle goes. -/
inductive StoreCall (sort : NodeSort) (α : Type) where
  | insert (a : α)
  | erase (h : Handle sort)

namespace Store

variable {sort : NodeSort} {α : Type}

/-- The store after a call. -/
def after (s : Store sort α) : StoreCall sort α → Store sort α
  | .insert a => (s.insert a).2
  | .erase h => s.erase h

/-- The store that a sequence of calls makes of the empty one. -/
def built (calls : List (StoreCall sort α)) : Store sort α := calls.foldl after {}

/-- How often a slot is freed in a sequence of calls. -/
def frees (s : Store sort α) (i : Nat) : List (StoreCall sort α) → Nat
  | [] => 0
  | call :: rest => (s.freed (s.after call) i).toNat + (s.after call).frees i rest

/-- The number of nodes as it is counted along: one more for each node that comes in, and
    one less for each that goes. -/
def tally (s : Store sort α) (n : Nat) : List (StoreCall sort α) → Nat
  | [] => n
  | .insert a :: rest => (s.after (.insert a)).tally (n + 1) rest
  | .erase h :: rest => (s.after (.erase h)).tally (if s.contains h then n - 1 else n) rest

/-- The call at a place of a sequence puts a node into the store and gives a handle for
    it. -/
structure HandsOut (calls : List (StoreCall sort α)) (k : Nat) (a : α) (h : Handle sort) :
    Prop where
  call : calls[k]? = some (.insert a)
  handle : ((built (calls.take k)).insert a).1 = h

/-- A handle was given for a node, and no call since then erases it. -/
def Standing (calls : List (StoreCall sort α)) (h : Handle sort) (a : α) : Prop :=
  ∃ k, HandsOut calls k a h ∧ ∀ j, k < j → calls[j]? ≠ some (.erase h)

theorem built_concat (calls : List (StoreCall sort α)) (call : StoreCall sort α) :
    built (calls ++ [call]) = (built calls).after call := List.foldl_concat ..

/-- What the first calls free, and what the last one does. -/
theorem frees_concat (i : Nat) (calls : List (StoreCall sort α)) (call : StoreCall sort α) :
    ({} : Store sort α).frees i (calls ++ [call]) = ({} : Store sort α).frees i calls +
      ((built calls).freed ((built calls).after call) i).toNat := by
  have hfrom : ∀ s : Store sort α, s.frees i (calls ++ [call]) = s.frees i calls +
      ((calls.foldl after s).freed ((calls.foldl after s).after call) i).toNat := by
    induction calls with
    | nil => simp [frees]
    | cons first rest ih =>
      intro s
      rw [List.cons_append, frees, frees, ih, Nat.add_assoc, List.foldl_cons]
  exact hfrom {}

/-- A call frees a slot at most once. -/
theorem frees_le_length (s : Store sort α) (i : Nat) (calls : List (StoreCall sort α)) :
    s.frees i calls ≤ calls.length := by
  induction calls generalizing s with
  | nil => exact Nat.le_refl 0
  | cons call rest ih =>
    have hcall := Bool.toNat_le (s.freed (s.after call) i)
    have hrest := ih (s.after call)
    rw [frees, List.length_cons]
    omega

theorem tidy_after {s : Store sort α} (hs : s.Tidy) (call : StoreCall sort α) :
    (s.after call).Tidy := by
  cases call with
  | insert a => exact tidy_insert hs a
  | erase h => exact tidy_erase hs h

theorem evolves_after {s : Store sort α} (hs : s.Tidy) (call : StoreCall sort α) :
    Evolves s (s.after call) := by
  cases call with
  | insert a => exact evolves_insert hs a
  | erase h => exact (OnlyFrees.erase s h).evolves

/-! ## 2. One call more -/

section Concat

variable {calls : List (StoreCall sort α)} {call : StoreCall sort α} {k : Nat} {a : α}
  {h : Handle sort}

theorem HandsOut.lt_length (hk : HandsOut calls k a h) : k < calls.length :=
  (List.getElem?_eq_some_iff.mp hk.call).1

/-- No call stands after the last one. -/
theorem le_length_of_concat {other : StoreCall sort α} {j : Nat}
    (hj : (calls ++ [call])[j]? = some other) :
    j ≤ calls.length := by
  have hlt := (List.getElem?_eq_some_iff.mp hj).1
  rw [List.length_append, List.length_singleton] at hlt
  omega

theorem handsOut_concat : HandsOut (calls ++ [call]) k a h ↔ HandsOut calls k a h ∨
    k = calls.length ∧ call = .insert a ∧ ((built calls).insert a).1 = h := by
  by_cases hk : k < calls.length
  · have htake : (calls ++ [call]).take k = calls.take k :=
      List.take_append_of_le_length (Nat.le_of_lt hk)
    constructor
    · intro hout
      exact .inl ⟨(List.getElem?_append_left hk).symm.trans hout.call, htake ▸ hout.handle⟩
    · rintro (hout | ⟨rfl, _⟩)
      · exact ⟨(List.getElem?_append_left hk).trans hout.call, htake.symm ▸ hout.handle⟩
      · exact absurd hk (Nat.lt_irrefl _)
  · constructor
    · rintro ⟨hcall, hhandle⟩
      obtain rfl : k = calls.length :=
        Nat.le_antisymm (le_length_of_concat hcall) (Nat.le_of_not_lt hk)
      rw [List.getElem?_concat_length, Option.some.injEq] at hcall
      rw [List.take_left] at hhandle
      exact .inr ⟨rfl, hcall, hhandle⟩
    · rintro (hout | ⟨rfl, rfl, hhandle⟩)
      · exact absurd hout.lt_length hk
      · exact ⟨List.getElem?_concat_length, by rw [List.take_left]; exact hhandle⟩

/-- What is standing stands until it is erased, and what comes in stands. -/
theorem standing_concat : Standing (calls ++ [call]) h a ↔
    Standing calls h a ∧ call ≠ .erase h ∨
      call = .insert a ∧ ((built calls).insert a).1 = h := by
  constructor
  · rintro ⟨k, hout, hkept⟩
    rcases handsOut_concat.mp hout with hout | ⟨_, hnew⟩
    · refine .inl ⟨⟨k, hout, fun j hj he => ?_⟩, fun he => ?_⟩
      · have hlt := (List.getElem?_eq_some_iff.mp he).1
        exact hkept j hj ((List.getElem?_append_left hlt).trans he)
      · exact hkept calls.length hout.lt_length (he ▸ List.getElem?_concat_length)
    · exact .inr hnew
  · rintro (⟨⟨k, hout, hkept⟩, hcall⟩ | hnew)
    · refine ⟨k, handsOut_concat.mpr (.inl hout), fun j hj he => ?_⟩
      rcases Nat.lt_or_eq_of_le (le_length_of_concat he) with hlt | rfl
      · exact hkept j hj ((List.getElem?_append_left hlt).symm.trans he)
      · rw [List.getElem?_concat_length, Option.some.injEq] at he
        exact hcall he
    · refine ⟨calls.length, handsOut_concat.mpr (.inr ⟨rfl, hnew⟩), fun j hj he => ?_⟩
      exact absurd hj (Nat.not_lt.mpr (le_length_of_concat he))

end Concat

/-! ## 3. The account -/

/-- The calls account for the store they lead to: generations count how often slots were
    freed, every handle that was given out counts as issued and was given out once, and
    what is standing is what the store holds. -/
structure Recorded (calls : List (StoreCall sort α)) : Prop where
  tidy : (built calls).Tidy
  generation : ∀ i, ((built calls).generationAt i).toNat = ({} : Store sort α).frees i calls
  issued : ∀ k a h, HandsOut calls k a h → (built calls).Issued h
  once : ∀ k k' a a' h, HandsOut calls k a h → HandsOut calls k' a' h → k = k'
  standing : ∀ h a, (built calls).get? h = some a ↔ Standing calls h a

namespace Recorded

variable {calls : List (StoreCall sort α)}

theorem empty : Recorded ([] : List (StoreCall sort α)) where
  tidy := tidy_empty
  generation _ := rfl
  issued _ _ _ hout := nomatch hout.call
  once _ _ _ _ _ hout := nomatch hout.call
  standing _ _ := by
    constructor
    · nofun
    · rintro ⟨_, hout, _⟩
      cases hout.call

/-- A new handle was not given out before. -/
theorem not_handsOut (hr : Recorded calls) {k : Nat} {a b : α} :
    ¬ HandsOut calls k b ((built calls).insert a).1 :=
  fun hout => not_issued_insert hr.tidy a (hr.issued _ _ _ hout)

/-- What the store holds after one call more. -/
theorem get?_after (hr : Recorded calls) (call : StoreCall sort α) (h : Handle sort) (a : α) :
    ((built calls).after call).get? h = some a ↔
      (built calls).get? h = some a ∧ call ≠ .erase h ∨
        call = .insert a ∧ ((built calls).insert a).1 = h := by
  cases call with
  | insert b =>
    show ((built calls).insert b).2.get? h = some a ↔ _
    rw [get?_insert hr.tidy]
    split
    · next hnew =>
      constructor
      · intro he
        cases he
        exact .inr ⟨rfl, hnew.symm⟩
      · rintro (⟨hold, _⟩ | ⟨he, _⟩)
        · rw [hnew, get?_insert_new hr.tidy] at hold
          cases hold
        · cases he
          rfl
    · next hne =>
      constructor
      · exact fun hold => .inl ⟨hold, nofun⟩
      · rintro (⟨hold, _⟩ | ⟨he, hnew⟩)
        · exact hold
        · cases he
          exact absurd hnew.symm hne
  | erase h' =>
    show ((built calls).erase h').get? h = some a ↔ _
    rw [get?_erase]
    split
    · next he =>
      constructor
      · nofun
      · rintro (⟨_, hne⟩ | ⟨hno, _⟩)
        · exact absurd (congrArg StoreCall.erase he.symm) hne
        · cases hno
    · next hne =>
      constructor
      · refine fun hold => .inl ⟨hold, fun he => ?_⟩
        cases he
        exact hne rfl
      · rintro (⟨hold, _⟩ | ⟨hno, _⟩)
        · exact hold
        · cases hno

/-- **One call keeps the account**, as long as no slot is freed too often. -/
theorem step (hr : Recorded calls) (call : StoreCall sort α)
    (hfew : ∀ i, ({} : Store sort α).frees i (calls ++ [call]) < UInt32.size) :
    Recorded (calls ++ [call]) := by
  have hevolves := evolves_after hr.tidy call
  have hlasts : ∀ i, ((built calls).generationAt i).toNat +
      ((built calls).freed ((built calls).after call) i).toNat < UInt32.size := by
    intro i
    rw [hr.generation, ← frees_concat]
    exact hfew i
  have hgrow : ∀ i, (built calls).generationAt i ≤ ((built calls).after call).generationAt i := by
    intro i
    rw [UInt32.le_iff_toNat_le, hevolves.toNat_generationAt (hlasts i)]
    exact Nat.le_add_right _ _
  refine ⟨?_, fun i => ?_, fun k a h hout => ?_, fun k k' a a' h hout hout' => ?_,
    fun h a => ?_⟩
  · rw [built_concat]
    exact tidy_after hr.tidy call
  · rw [built_concat, hevolves.toNat_generationAt (hlasts i), hr.generation, frees_concat]
  · rw [built_concat]
    rcases handsOut_concat.mp hout with hout | ⟨_, rfl, rfl⟩
    · exact hevolves.issued hgrow (hr.issued k a h hout)
    · exact issued_of_get? (get?_insert_self hr.tidy a)
  · rcases handsOut_concat.mp hout with hout | ⟨hk, _, rfl⟩
    · rcases handsOut_concat.mp hout' with hout' | ⟨_, _, rfl⟩
      · exact hr.once k k' a a' h hout hout'
      · exact absurd hout hr.not_handsOut
    · rcases handsOut_concat.mp hout' with hout' | ⟨hk', _⟩
      · exact absurd hout' hr.not_handsOut
      · exact hk.trans hk'.symm
  · rw [built_concat, hr.get?_after, hr.standing, standing_concat]

end Recorded

/-- The account is kept along every sequence of calls that frees no slot too often. -/
theorem recorded (calls : List (StoreCall sort α))
    (hfew : ∀ i, ({} : Store sort α).frees i calls < UInt32.size) : Recorded calls := by
  induction calls using List.reverseRecOn with
  | nil => exact .empty
  | append_singleton calls call ih =>
    refine (ih fun i => ?_).step call hfew
    have hi := hfew i
    rw [frees_concat] at hi
    omega

/-! ## 4. Counting and listing -/

/-- The free list is a list of the empty slots. -/
theorem Tidy.free_perm {s : Store sort α} (hs : s.Tidy) :
    s.free.Perm ((List.range s.slots.size).filter fun i => (s.slots[i]?).any (·.value.isNone)) := by
  rw [List.perm_ext_iff_of_nodup hs.nodup (List.nodup_range.filter _)]
  intro i
  rw [hs.mem_free, List.mem_filter, List.mem_range]
  cases hslot : s.slots[i]? with
  | none => simp
  | some slot => simp [(Array.getElem?_eq_some_iff.mp hslot).1]

/-- A property of slots holds of as many slots as there are indices of such slots. -/
theorem length_filter_slots (s : Store sort α) (p : Slot α → Bool) :
    ((List.range s.slots.size).filter fun i => (s.slots[i]?).any p).length =
      s.slots.toList.countP p := by
  have hlist : (List.range s.slots.size).map (s.slots[·]?) = s.slots.toList.map some := by
    refine List.ext_getElem? fun i => ?_
    rw [List.getElem?_map, List.getElem?_map, Array.getElem?_toList]
    by_cases hi : i < s.slots.size
    · simp [hi]
    · simp [hi]
  have hcount := congrArg (List.countP (Option.any p)) hlist
  rw [List.countP_map, List.countP_map] at hcount
  rw [← List.countP_eq_length_filter]
  exact hcount

/-- **A store has as many nodes as it has filled slots.** -/
theorem Tidy.size_eq {s : Store sort α} (hs : s.Tidy) :
    s.size = s.slots.toList.countP (·.value.isSome) := by
  have hempty : s.free.length = s.slots.toList.countP (·.value.isNone) := by
    rw [hs.free_perm.length_eq, length_filter_slots]
  have hall := List.length_eq_countP_add_countP (fun slot : Slot α => slot.value.isSome)
    (l := s.slots.toList)
  have hnone : (fun slot : Slot α => decide ¬ slot.value.isSome = true) = (·.value.isNone) := by
    funext slot
    cases slot.value <;> rfl
  rw [hnone, ← hempty, Array.length_toList] at hall
  unfold size
  omega

theorem Tidy.length_free_le {s : Store sort α} (hs : s.Tidy) : s.free.length ≤ s.slots.size := by
  rw [hs.free_perm.length_eq]
  exact (List.length_filter_le _ _).trans (Nat.le_of_eq List.length_range)

theorem size_insert {s : Store sort α} (hs : s.Tidy) (a : α) : (s.insert a).2.size = s.size + 1 := by
  have hle := hs.length_free_le
  unfold insert size
  split
  · next i rest hf =>
    rw [hf, List.length_cons] at hle ⊢
    dsimp only
    rw [Array.size_setIfInBounds]
    omega
  · next hf =>
    rw [hf, Array.size_push, List.length_nil]
    omega

theorem size_erase (s : Store sort α) (h : Handle sort) :
    (s.erase h).size = if s.contains h then s.size - 1 else s.size := by
  unfold erase contains size
  cases hget : s.get? h with
  | none => rfl
  | some a =>
    dsimp only [Option.isSome]
    rw [if_pos rfl, Array.size_setIfInBounds, List.length_cons]
    omega

/-- **Counted along, the number of nodes is right at the end.** -/
theorem tally_eq {s : Store sort α} (hs : s.Tidy) (calls : List (StoreCall sort α)) :
    s.tally s.size calls = (calls.foldl after s).size := by
  induction calls generalizing s with
  | nil => rfl
  | cons call rest ih =>
    rw [List.foldl_cons, ← ih (tidy_after hs call)]
    cases call with
    | insert a =>
      rw [tally, ← size_insert hs a]
      rfl
    | erase h =>
      rw [tally, ← size_erase s h]
      rfl

/-- **Nodes are listed by slot**, each once. -/
theorem pairwise_entries (s : Store sort α) :
    s.entries.Pairwise fun e e' => e.1.slot < e'.1.slot := by
  unfold entries
  have hplaces : s.slots.toList.zipIdx.Pairwise fun p p' => p.2 < p'.2 := by
    rw [← List.pairwise_map (f := Prod.snd), List.zipIdx_map_snd]
    exact List.pairwise_lt_range'
  refine hplaces.filterMap _ fun p p' hlt e he e' he' => ?_
  obtain ⟨a, _, rfl⟩ := Option.map_eq_some_iff.mp he
  obtain ⟨a', _, rfl⟩ := Option.map_eq_some_iff.mp he'
  exact hlt

/-! ## 5. Every sequence of calls -/

/-- **What a store answers is what the calls say**, if no slot is freed `2 ^ 32` times.
    The free list holds each empty slot once; the size is the number of filled slots, and
    the number that is counted along; no handle is given out twice; a handle names the node
    it was given for from then on until it is erased, and nothing otherwise; and the nodes
    are listed under their handles, slot by slot. -/
theorem history_exact (calls : List (StoreCall sort α))
    (hfew : ∀ i, ({} : Store sort α).frees i calls < UInt32.size) :
    let s : Store sort α := built calls
    (s.free.Nodup ∧
      ∀ i : Nat, i ∈ s.free ↔ ∃ slot, s.slots[i]? = some slot ∧ slot.value = none) ∧
    (s.size = s.slots.toList.countP (·.value.isSome) ∧ s.size = ({} : Store sort α).tally 0 calls) ∧
    (∀ k k' a a' h, HandsOut calls k a h → HandsOut calls k' a' h → k = k') ∧
    (∀ h a, s.get? h = some a ↔
      ∃ k, HandsOut calls k a h ∧ ∀ j, k < j → calls[j]? ≠ some (.erase h)) ∧
    (s.entries.Pairwise fun e e' => e.1.slot < e'.1.slot) ∧
    ∀ h a, (h, a) ∈ s.entries ↔ s.get? h = some a := by
  intro s
  have hr := recorded calls hfew
  refine ⟨⟨hr.tidy.nodup, hr.tidy.mem_free⟩, ⟨hr.tidy.size_eq, ?_⟩, hr.once, hr.standing,
    pairwise_entries s, fun h a => mem_entries_iff⟩
  exact (tally_eq tidy_empty calls).symm

/-- Two nodes come in and the first one goes, twice over. Its slot is filled anew, and a
    handle of the slot that was never given out is erased as well. -/
def reusedSlot : List (StoreCall .declaration Nat) :=
  [.insert 10, .insert 20, .erase ⟨0, 0⟩, .erase ⟨0, 0⟩, .insert 30, .erase ⟨0, 5⟩]

/-- The third node is found under the second handle of the first slot, which only its own
    call gave out; the first handle of the slot names nothing. -/
theorem history_exact_reused :
    (built reusedSlot).get? ⟨0, 1⟩ = some 30 ∧ (built reusedSlot).size = 2 ∧
      (∀ k a, HandsOut reusedSlot k a ⟨0, 1⟩ → k = 4) ∧
      ¬ ∃ k, HandsOut reusedSlot k 10 ⟨0, 0⟩ ∧
        ∀ j, k < j → reusedSlot[j]? ≠ some (.erase ⟨0, 0⟩) := by
  have hfew : ∀ i, ({} : Store .declaration Nat).frees i reusedSlot < UInt32.size :=
    fun i => Nat.lt_of_le_of_lt (frees_le_length _ i _) (by decide)
  obtain ⟨_, ⟨_, hsize⟩, honce, hget, _⟩ := history_exact reusedSlot hfew
  refine ⟨(hget _ _).mpr ?_, hsize, fun k a hout => honce k 4 a 30 _ hout ⟨rfl, by decide⟩, ?_⟩
  · refine ⟨4, ⟨rfl, by decide⟩, fun j hj he => ?_⟩
    have hlt : j < 6 := (List.getElem?_eq_some_iff.mp he).1
    obtain rfl : j = 5 := by omega
    cases he
  · rw [← hget]
    decide

end Store

end ScopeGraph
