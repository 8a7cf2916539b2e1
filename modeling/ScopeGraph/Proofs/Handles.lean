/-
  File:      ScopeGraph/Proofs/Handles.lean
  Subject:   Which handles a store has given out, and what a change of the
             store does to them.

  * `Store.Tidy`: the free list holds exactly the empty slots, each once. It
    holds of the empty store and every change keeps it.
  * `Store.Issued`: a handle that names a node, or named one before. What
    `insert` gives is a handle that was not issued (`not_issued_insert`).
  * `Store.map`: the store with a part of every node; two stores with the
    same part under a view agree on everything that reads only this part.
  * `Store.SameSlots`: nodes were changed in place at most;
  * `Store.OnlyFrees`, `Store.Evolves`: what an edit can do to a store. A slot's
    generation counts how often it was freed (`Evolves.generationAt_eq`), and
    while no generation wraps an issued handle stays issued
    (`Evolves.issued`), and names nothing once its node is gone
    (`Evolves.stays_gone`).
-/
import Mathlib.Data.List.Nodup
import Mathlib.Data.Finset.Card
import Mathlib.Data.Finset.Range
import Mathlib.Order.Defs.Unbundled
import ScopeGraph.Store

namespace ScopeGraph

/-- Two states look the same under a view. -/
def SameUnder {σ β : Type} (view : σ → β) (s s' : σ) : Prop := view s' = view s

namespace SameUnder

variable {σ β γ : Type} {view : σ → β} {s₁ s₂ s₃ : σ}

theorem refl (s : σ) : SameUnder view s s := rfl

theorem trans (h₁ : SameUnder view s₁ s₂) (h₂ : SameUnder view s₂ s₃) : SameUnder view s₁ s₃ :=
  Eq.trans h₂ h₁

instance : IsPreorder σ (SameUnder view) where
  refl := refl
  trans _ _ _ := trans

end SameUnder

namespace Store

variable {sort : NodeSort} {α β : Type}

/-! ## 1. Tidy stores -/

/-- The free list holds exactly the empty slots, each once. -/
structure Tidy (s : Store sort α) : Prop where
  nodup : s.free.Nodup
  mem_free : ∀ i : Nat, i ∈ s.free ↔ ∃ slot, s.slots[i]? = some slot ∧ slot.value = none

theorem tidy_empty : Tidy ({} : Store sort α) where
  nodup := List.nodup_nil
  mem_free i := by simp

/-- The slot that a free list gives next is empty. -/
theorem Tidy.free_head {s : Store sort α} (hs : s.Tidy) {i : Nat} {rest : List Nat}
    (hf : s.free = i :: rest) : ∃ gen, s.slots[i]? = some ⟨gen, none⟩ := by
  have hi : i ∈ s.free := by rw [hf]; exact List.mem_cons_self
  obtain ⟨⟨gen, value⟩, hslot, hv⟩ := (hs.mem_free i).mp hi
  simp only at hv
  subst hv
  exact ⟨gen, hslot⟩

theorem get?_eq_some_iff {s : Store sort α} {h : Handle sort} {a : α} :
    s.get? h = some a ↔ s.slots[h.slot]? = some ⟨h.generation, some a⟩ := by
  constructor
  · exact slot_of_get?
  · intro hs
    simp [get?, hs]

theorem tidy_modify {s : Store sort α} (hs : s.Tidy) (h : Handle sort) (f : α → α) :
    (s.modify h f).Tidy := by
  unfold modify
  split
  · next a ha =>
    have hslot := slot_of_get? ha
    refine ⟨hs.nodup, fun i => ?_⟩
    rw [hs.mem_free i]
    by_cases hi : h.slot = i
    · subst hi
      rw [hslot, Array.getElem?_setIfInBounds_self_of_lt (slot_lt_of_get? ha)]
      simp
    · rw [Array.getElem?_setIfInBounds_ne hi]
  · exact hs

theorem tidy_erase {s : Store sort α} (hs : s.Tidy) (h : Handle sort) : (s.erase h).Tidy := by
  unfold erase
  split
  · next a ha =>
    have hslot := slot_of_get? ha
    refine ⟨List.nodup_cons.mpr ⟨fun hmem => ?_, hs.nodup⟩, fun i => ?_⟩
    · obtain ⟨slot, hslot', hv⟩ := (hs.mem_free _).mp hmem
      rw [hslot] at hslot'
      cases hslot'
      cases hv
    · by_cases hi : h.slot = i
      · subst hi
        simp [slot_lt_of_get? ha]
      · rw [List.mem_cons, hs.mem_free i, Array.getElem?_setIfInBounds_ne hi]
        exact ⟨fun h' => h'.resolve_left (fun e => hi e.symm), Or.inr⟩
  · exact hs

theorem tidy_insert {s : Store sort α} (hs : s.Tidy) (a : α) : (s.insert a).2.Tidy := by
  unfold insert
  split
  · next i rest hf =>
    obtain ⟨gen, hslot⟩ := hs.free_head hf
    have hlt := (Array.getElem?_eq_some_iff.mp hslot).1
    have hnd := hs.nodup
    rw [hf, List.nodup_cons] at hnd
    refine ⟨hnd.2, fun j => ?_⟩
    by_cases hj : i = j
    · subst hj
      simp [hnd.1, hlt]
    · rw [Array.getElem?_setIfInBounds_ne hj, ← hs.mem_free j, hf, List.mem_cons]
      exact ⟨Or.inr, fun h' => h'.resolve_left (fun e => hj e.symm)⟩
  · next hf =>
    refine ⟨hs.nodup, fun j => ?_⟩
    rw [hs.mem_free j, Array.getElem?_push]
    constructor
    · rintro ⟨slot, hslot, hv⟩
      have hlt := (Array.getElem?_eq_some_iff.mp hslot).1
      exact ⟨slot, by rw [if_neg (by omega)]; exact hslot, hv⟩
    · rintro ⟨slot, hslot, hv⟩
      split at hslot
      · cases hslot
        cases hv
      · exact ⟨slot, hslot, hv⟩

/-! ## 2. A new node -/

theorem get?_insert_self {s : Store sort α} (hs : s.Tidy) (a : α) :
    (s.insert a).2.get? (s.insert a).1 = some a := by
  rw [get?_eq_some_iff]
  unfold insert
  split
  · next i rest hf =>
    obtain ⟨gen, hslot⟩ := hs.free_head hf
    simp [(Array.getElem?_eq_some_iff.mp hslot).1]
  · simp

/-- The handle of a new node named nothing before. -/
theorem get?_insert_new {s : Store sort α} (hs : s.Tidy) (a : α) :
    s.get? (s.insert a).1 = none := by
  unfold insert
  split
  · next i rest hf =>
    obtain ⟨gen, hslot⟩ := hs.free_head hf
    simp [get?, hslot]
  · simp [get?]

/-- A new node leaves the others as they are. -/
theorem get?_insert_of_ne {s : Store sort α} (hs : s.Tidy) (a : α) {h : Handle sort}
    (hne : h ≠ (s.insert a).1) : (s.insert a).2.get? h = s.get? h := by
  revert hne
  unfold insert
  split
  · next i rest hf =>
    obtain ⟨gen, hslot⟩ := hs.free_head hf
    intro hne
    by_cases hi : i = h.slot
    · subst hi
      have hgen : gen ≠ h.generation := by
        intro e
        apply hne
        simp [hslot, e]
      have hlt := (Array.getElem?_eq_some_iff.mp hslot).1
      unfold get?
      rw [Array.getElem?_setIfInBounds_self_of_lt hlt, hslot]
      simp [hgen]
    · simp [get?, Array.getElem?_setIfInBounds_ne hi]
  · intro hne
    unfold get?
    rw [Array.getElem?_push]
    by_cases hi : h.slot = s.slots.size
    · have hgen : (0 : UInt32) ≠ h.generation := by
        intro e
        apply hne
        cases h
        simp_all
      simp [hi, hgen]
    · rw [if_neg hi]

/-- What `get?` answers after a new node came in. -/
theorem get?_insert {s : Store sort α} (hs : s.Tidy) (a : α) (h : Handle sort) :
    (s.insert a).2.get? h = if h = (s.insert a).1 then some a else s.get? h := by
  split
  · next e => rw [e, get?_insert_self hs]
  · next hne => exact get?_insert_of_ne hs a hne

/-- What `get?` answers after a node was changed. -/
theorem get?_modify (s : Store sort α) (h h' : Handle sort) (f : α → α) :
    (s.modify h f).get? h' = if h' = h then (s.get? h').map f else s.get? h' := by
  split
  · next e => rw [e, get?_modify_self]
  · next hne => exact get?_modify_of_ne s f hne

/-- What `get?` answers after a node was freed. -/
theorem get?_erase (s : Store sort α) (h h' : Handle sort) :
    (s.erase h).get? h' = if h' = h then none else s.get? h' := by
  split
  · next e => rw [e, get?_erase_self]
  · next hne => exact get?_erase_of_ne s hne

/-! ## 3. Issued handles -/

/-- A handle that names a node, or named one before: its slot is of a later
    generation, or filled at the handle's own. -/
def Issued (s : Store sort α) (h : Handle sort) : Prop :=
  ∃ slot, s.slots[h.slot]? = some slot ∧
    (h.generation < slot.generation ∨ h.generation = slot.generation ∧ slot.value.isSome)

theorem issued_of_get? {s : Store sort α} {h : Handle sort} {a : α} (ha : s.get? h = some a) :
    s.Issued h :=
  ⟨_, slot_of_get? ha, Or.inr ⟨rfl, rfl⟩⟩

/-- **A new node's handle was not given out before.** -/
theorem not_issued_insert {s : Store sort α} (hs : s.Tidy) (a : α) :
    ¬ s.Issued (s.insert a).1 := by
  unfold insert
  split
  · next i rest hf =>
    obtain ⟨gen, hslot⟩ := hs.free_head hf
    rintro ⟨slot, hslot', h | ⟨_, h⟩⟩
    · simp only [hslot, Option.some.injEq] at hslot'
      subst hslot'
      simp [hslot] at h
    · simp only [hslot, Option.some.injEq] at hslot'
      subst hslot'
      cases h
  · rintro ⟨slot, hslot, _⟩
    simp at hslot

theorem Issued.insert {s : Store sort α} {h : Handle sort} (hi : s.Issued h) (hs : s.Tidy) (a : α) :
    (s.insert a).2.Issued h := by
  obtain ⟨slot, hslot, hg⟩ := hi
  unfold Store.insert
  split
  · next i rest hf =>
    obtain ⟨gen, hfree⟩ := hs.free_head hf
    by_cases hi : i = h.slot
    · subst hi
      rw [hfree, Option.some.injEq] at hslot
      subst hslot
      refine ⟨⟨gen, some a⟩, ?_, ?_⟩
      · rw [Array.getElem?_setIfInBounds_self_of_lt (Array.getElem?_eq_some_iff.mp hfree).1, hfree]
        rfl
      · exact hg.imp id fun e => ⟨e.1, rfl⟩
    · exact ⟨slot, by rw [Array.getElem?_setIfInBounds_ne hi]; exact hslot, hg⟩
  · have hlt := (Array.getElem?_eq_some_iff.mp hslot).1
    exact ⟨slot, by rw [Array.getElem?_push, if_neg (by omega)]; exact hslot, hg⟩

/-! ## 4. Views -/

/-- The store with a part of every node, in the same slots. -/
def map (v : α → β) (s : Store sort α) : Store sort β where
  slots := s.slots.map fun slot : Slot α => ⟨slot.generation, slot.value.map v⟩
  free := s.free

@[simp] theorem get?_map (v : α → β) (s : Store sort α) (h : Handle sort) :
    (s.map v).get? h = (s.get? h).map v := by
  unfold get? map
  rw [Array.getElem?_map]
  cases s.slots[h.slot]? with
  | none => rfl
  | some slot =>
    simp only [Option.map_some]
    split <;> simp_all

@[simp] theorem map_id (s : Store sort α) : s.map (fun a => a) = s := by
  simp [map]

/-- What a view is made of is the same where the view is. -/
theorem map_eq_of_map_eq {γ : Type} {v : α → β} {s s' : Store sort α} (u : β → γ)
    (h : s'.map v = s.map v) : s'.map (fun a => u (v a)) = s.map (fun a => u (v a)) := by
  have hmap : ∀ s : Store sort α, s.map (fun a => u (v a)) = (s.map v).map u := by
    intro s
    simp [map, Function.comp_def]
  rw [hmap, hmap, h]

theorem get?_of_map_eq {v : α → β} {s s' : Store sort α} (h : s'.map v = s.map v) (c : Handle sort) :
    (s'.get? c).map v = (s.get? c).map v := by
  rw [← get?_map, ← get?_map, h]

@[simp] theorem capacity_map (v : α → β) (s : Store sort α) : (s.map v).capacity = s.capacity := by
  simp [capacity, map]

theorem issued_map (v : α → β) (s : Store sort α) (h : Handle sort) :
    (s.map v).Issued h ↔ s.Issued h := by
  unfold Issued map
  rw [Array.getElem?_map]
  cases s.slots[h.slot]? <;> simp

theorem tidy_map (v : α → β) (s : Store sort α) : (s.map v).Tidy ↔ s.Tidy := by
  have h : ∀ i : Nat, (∃ slot : Slot β, (s.map v).slots[i]? = some slot ∧ slot.value = none) ↔
      ∃ slot : Slot α, s.slots[i]? = some slot ∧ slot.value = none := by
    intro i
    unfold map
    rw [Array.getElem?_map]
    cases s.slots[i]? <;> simp
  exact ⟨fun t => ⟨t.nodup, fun i => (t.mem_free i).trans (h i)⟩,
    fun t => ⟨t.nodup, fun i => (t.mem_free i).trans (h i).symm⟩⟩

theorem tidy_of_map_eq {v : α → β} {s s' : Store sort α} (h : s'.map v = s.map v)
    (hs : s.Tidy) : s'.Tidy := by
  rw [← tidy_map v, h, tidy_map]
  exact hs

/-- A change that the view does not show leaves the view of the store. -/
theorem map_modify {v : α → β} {f : α → α} (s : Store sort α) (h : Handle sort)
    (hv : ∀ a, s.get? h = some a → v (f a) = v a) : (s.modify h f).map v = s.map v := by
  unfold modify
  split
  · next a ha =>
    have hslot := slot_of_get? ha
    unfold map
    congr 1
    apply Array.ext_getElem?
    intro i
    rw [Array.getElem?_map, Array.getElem?_map]
    by_cases hi : h.slot = i
    · subst hi
      rw [hslot, Array.getElem?_setIfInBounds_self_of_lt (slot_lt_of_get? ha)]
      simp [hv a ha]
    · rw [Array.getElem?_setIfInBounds_ne hi]
  · rfl

/-! ## 5. Stores after edits -/

/-- Nodes were changed in place or freed, nothing else: a slot keeps its
    generation and whether it is filled, or it was filled and is empty at the
    next generation. -/
structure OnlyFrees (s s' : Store sort α) : Prop where
  size : s'.slots.size = s.slots.size
  slot : ∀ (i : Nat) (slot : Slot α), s.slots[i]? = some slot → ∃ slot', s'.slots[i]? = some slot' ∧
    (slot'.generation = slot.generation ∧ slot'.value.isSome = slot.value.isSome ∨
      slot'.generation = slot.generation + 1 ∧ slot'.value = none ∧ slot.value.isSome = true)

namespace OnlyFrees

theorem refl (s : Store sort α) : OnlyFrees s s :=
  ⟨rfl, fun _ slot hslot => ⟨slot, hslot, Or.inl ⟨rfl, rfl⟩⟩⟩

theorem trans {s₁ s₂ s₃ : Store sort α} (h₁ : OnlyFrees s₁ s₂) (h₂ : OnlyFrees s₂ s₃) :
    OnlyFrees s₁ s₃ := by
  refine ⟨h₂.size.trans h₁.size, fun i slot hslot => ?_⟩
  obtain ⟨slot₂, hslot₂, hc₂⟩ := h₁.slot i slot hslot
  obtain ⟨slot₃, hslot₃, hc₃⟩ := h₂.slot i slot₂ hslot₂
  refine ⟨slot₃, hslot₃, ?_⟩
  rcases hc₂ with ⟨hg₂, hv₂⟩ | ⟨hg₂, hv₂, hf₂⟩
  · rw [← hg₂, ← hv₂]
    exact hc₃
  · rcases hc₃ with ⟨hg₃, hv₃⟩ | ⟨_, _, hf₃⟩
    · rw [hv₂] at hv₃
      exact Or.inr ⟨hg₃.trans hg₂, by simpa using hv₃, hf₂⟩
    · rw [hv₂] at hf₃
      cases hf₃

theorem modify (s : Store sort α) (h : Handle sort) (f : α → α) : OnlyFrees s (s.modify h f) := by
  unfold Store.modify
  split
  · next a ha =>
    refine ⟨Array.size_setIfInBounds, fun i slot hslot => ?_⟩
    by_cases hi : h.slot = i
    · subst hi
      rw [slot_of_get? ha, Option.some.injEq] at hslot
      subst hslot
      exact ⟨_, Array.getElem?_setIfInBounds_self_of_lt (slot_lt_of_get? ha), Or.inl ⟨rfl, rfl⟩⟩
    · exact ⟨slot, by rw [Array.getElem?_setIfInBounds_ne hi]; exact hslot, Or.inl ⟨rfl, rfl⟩⟩
  · exact refl s

theorem erase (s : Store sort α) (h : Handle sort) : OnlyFrees s (s.erase h) := by
  unfold Store.erase
  split
  · next a ha =>
    refine ⟨Array.size_setIfInBounds, fun i slot hslot => ?_⟩
    by_cases hi : h.slot = i
    · subst hi
      rw [slot_of_get? ha, Option.some.injEq] at hslot
      subst hslot
      exact ⟨_, Array.getElem?_setIfInBounds_self_of_lt (slot_lt_of_get? ha),
        Or.inr ⟨rfl, rfl, rfl⟩⟩
    · exact ⟨slot, by rw [Array.getElem?_setIfInBounds_ne hi]; exact hslot, Or.inl ⟨rfl, rfl⟩⟩
  · exact refl s

end OnlyFrees

/-- One more node at most came in, and the others were changed in place; or
    nodes were changed in place or freed. This is what one edit can do. -/
structure Evolves (s s' : Store sort α) : Prop where
  slot : ∀ (i : Nat) (slot : Slot α), s.slots[i]? = some slot → ∃ slot', s'.slots[i]? = some slot' ∧
    (slot'.generation = slot.generation ∧ (slot.value.isSome → slot'.value.isSome) ∨
      slot'.generation = slot.generation + 1 ∧ slot'.value = none ∧ slot.value.isSome = true)
  new : ∀ (i : Nat) (slot' : Slot α), s.slots[i]? = none → s'.slots[i]? = some slot' →
    slot'.generation = 0

theorem OnlyFrees.evolves {s s' : Store sort α} (h : OnlyFrees s s') : Evolves s s' where
  slot i slot hslot := by
    obtain ⟨slot', hslot', hc⟩ := h.slot i slot hslot
    exact ⟨slot', hslot', hc.imp (fun e => ⟨e.1, fun hf => e.2.trans hf⟩) id⟩
  new i slot' hnone hslot' := by
    have hlt := (Array.getElem?_eq_some_iff.mp hslot').1
    rw [h.size] at hlt
    rw [Array.getElem?_eq_none_iff] at hnone
    omega

theorem evolves_insert {s : Store sort α} (hs : s.Tidy) (a : α) : Evolves s (s.insert a).2 := by
  unfold insert
  split
  · next i rest hf =>
    obtain ⟨gen, hfree⟩ := hs.free_head hf
    have hlt := (Array.getElem?_eq_some_iff.mp hfree).1
    refine ⟨fun j slot hslot => ?_, fun j slot' hnone hslot' => ?_⟩
    · by_cases hj : i = j
      · subst hj
        rw [hfree, Option.some.injEq] at hslot
        subst hslot
        refine ⟨_, Array.getElem?_setIfInBounds_self_of_lt hlt, Or.inl ⟨?_, fun _ => rfl⟩⟩
        rw [hfree]
        rfl
      · exact ⟨slot, by rw [Array.getElem?_setIfInBounds_ne hj]; exact hslot, Or.inl ⟨rfl, id⟩⟩
    · have hne : i ≠ j := by
        intro e
        subst e
        rw [hfree] at hnone
        cases hnone
      rw [Array.getElem?_setIfInBounds_ne hne, hnone] at hslot'
      cases hslot'
  · refine ⟨fun j slot hslot => ?_, fun j slot' hnone hslot' => ?_⟩
    · have hlt := (Array.getElem?_eq_some_iff.mp hslot).1
      exact ⟨slot, by rw [Array.getElem?_push, if_neg (by omega)]; exact hslot, Or.inl ⟨rfl, id⟩⟩
    · rw [Array.getElem?_push] at hslot'
      split at hslot'
      · cases hslot'
        rfl
      · rw [hnone] at hslot'
        cases hslot'

/-- A store after a change that neither fills nor frees a slot. -/
theorem slot_of_map_eq {v : α → β} {s s' : Store sort α} (h : s'.map v = s.map v) (i : Nat)
    {slot : Slot α} (hslot : s.slots[i]? = some slot) : ∃ slot', s'.slots[i]? = some slot' ∧
      slot'.generation = slot.generation ∧ slot'.value.map v = slot.value.map v := by
  have hi := congrArg (fun t : Store sort β => t.slots[i]?) h
  simp only [map, Array.getElem?_map, hslot, Option.map_some] at hi
  obtain ⟨slot', hslot', e⟩ := Option.map_eq_some_iff.mp hi
  simp only [Slot.mk.injEq] at e
  exact ⟨slot', hslot', e⟩

theorem onlyFrees_of_map_eq {v : α → β} {s s' : Store sort α} (h : s'.map v = s.map v) :
    OnlyFrees s s' := by
  refine ⟨?_, fun i slot hslot => ?_⟩
  · have hsize := congrArg capacity h
    rw [capacity_map, capacity_map] at hsize
    exact hsize
  · obtain ⟨slot', hslot', hg, hv⟩ := slot_of_map_eq h i hslot
    refine ⟨slot', hslot', Or.inl ⟨hg, ?_⟩⟩
    rw [← Option.isSome_map (f := v), hv, Option.isSome_map]

/-- The same slots are filled, at the same generations. -/
abbrev SameSlots : Store sort α → Store sort α → Prop := SameUnder (map fun _ => ())

namespace SameSlots

variable {s s' : Store sort α}

theorem modify (s : Store sort α) (h : Handle sort) (f : α → α) : SameSlots s (s.modify h f) :=
  map_modify s h fun _ _ => rfl

theorem isSome_get? (h : SameSlots s s') (c : Handle sort) :
    (s'.get? c).isSome = (s.get? c).isSome := by
  have hc := congrArg (fun t => (t.get? c).isSome) h
  simpa using hc

theorem capacity (h : SameSlots s s') : s'.capacity = s.capacity := by
  have hsize := congrArg Store.capacity h
  simpa using hsize

theorem tidy (h : SameSlots s s') (hs : s.Tidy) : s'.Tidy := tidy_of_map_eq h hs

theorem onlyFrees (h : SameSlots s s') : OnlyFrees s s' := onlyFrees_of_map_eq h

/-- Stores whose slots are alike are equal if they hold the same nodes. -/
theorem eq_of_get? (h : SameSlots s s') (hget : ∀ c, s'.get? c = s.get? c) : s' = s := by
  have hslots : s'.slots = s.slots := by
    refine Array.ext_getElem? fun i => ?_
    cases hslot : s.slots[i]? with
    | none =>
      have hsize : s'.slots.size = s.slots.size := h.capacity
      rw [Array.getElem?_eq_none_iff] at hslot ⊢
      rw [hsize]
      exact hslot
    | some slot =>
      obtain ⟨slot', hslot', hgen, _⟩ := slot_of_map_eq h i hslot
      have hvalue := hget ⟨i, slot.generation⟩
      simp only [get?, hslot, hslot', hgen, if_true] at hvalue
      rw [hslot']
      cases slot
      cases slot'
      simp_all
  have hfree : s'.free = s.free := congrArg (·.free) h
  cases s
  cases s'
  simp_all

end SameSlots

theorem Evolves.of_map_eq {v : α → β} {s s' s'' : Store sort α} (h : Evolves s s')
    (hv : s''.map v = s'.map v) : Evolves s s'' := by
  refine ⟨fun i slot hslot => ?_, fun i slot'' hnone hslot'' => ?_⟩
  · obtain ⟨slot', hslot', hc⟩ := h.slot i slot hslot
    obtain ⟨slot'', hslot'', hg, hm⟩ := slot_of_map_eq hv i hslot'
    refine ⟨slot'', hslot'', ?_⟩
    rcases hc with ⟨hg', hf⟩ | ⟨hg', hn, hf⟩
    · refine Or.inl ⟨hg.trans hg', fun hs => ?_⟩
      rw [← Option.isSome_map (f := v), hm, Option.isSome_map]
      exact hf hs
    · refine Or.inr ⟨hg.trans hg', ?_, hf⟩
      rw [hn] at hm
      simpa using hm
  · obtain ⟨slot', hslot', hg, _⟩ := slot_of_map_eq hv.symm i hslot''
    rw [← hg]
    exact h.new i slot' hnone hslot'

/-- The generation of a slot; a slot that was never used is at zero. -/
def generationAt (s : Store sort α) (i : Nat) : UInt32 := (s.slots[i]?.getD {}).generation

/-- Whether the node that a slot held in one store is gone from another. -/
def freed (s s' : Store sort α) (i : Nat) : Bool :=
  match s.slots[i]? with
  | some slot => slot.value.isSome && !s'.contains ⟨i, slot.generation⟩
  | none => false

/-- **Freeing a slot is what moves its generation**, by one. -/
theorem Evolves.generationAt_eq {s s' : Store sort α} (h : Evolves s s') (i : Nat) :
    s'.generationAt i = s.generationAt i + if s.freed s' i then 1 else 0 := by
  unfold generationAt freed
  cases hslot : s.slots[i]? with
  | none =>
    cases hslot' : s'.slots[i]? with
    | none => simp
    | some slot' => simp [h.new i slot' hslot hslot']
  | some slot =>
    obtain ⟨slot', hslot', hc⟩ := h.slot i slot hslot
    rcases hc with ⟨hg, hf⟩ | ⟨hg, hn, hf⟩
    · cases hv : slot.value with
      | none => simp [hslot', hg, hv]
      | some a =>
        have hs : slot'.value.isSome := hf (by rw [hv]; rfl)
        simp [hslot', hg, hv, contains, get?, hs]
    · simp [hslot', hg, hf, contains, get?]

/-- As long as the generation of a slot does not wrap, it counts how often the slot was
    freed. -/
theorem Evolves.toNat_generationAt {s s' : Store sort α} (h : Evolves s s') {i : Nat}
    (hlasts : (s.generationAt i).toNat + (s.freed s' i).toNat < UInt32.size) :
    (s'.generationAt i).toNat = (s.generationAt i).toNat + (s.freed s' i).toNat := by
  have hbound : _ < 2 ^ 32 := hlasts
  rw [h.generationAt_eq i]
  cases hf : s.freed s' i with
  | false => simp
  | true =>
    rw [hf] at hbound
    simp only [if_true, Bool.toNat_true, UInt32.toNat_add, UInt32.toNat_one] at hbound ⊢
    omega

/-- **Generations that do not run out grow**, and what was freed is used up. The slots
    are freed `frees` more times afterwards. -/
theorem Evolves.lasts {s s' : Store sort α} (h : Evolves s s') {frees : Nat → Nat}
    (hlasts : ∀ i, (s.generationAt i).toNat + ((s.freed s' i).toNat + frees i) < UInt32.size) :
    (∀ i, s.generationAt i ≤ s'.generationAt i) ∧
      ∀ i, (s'.generationAt i).toNat + frees i < UInt32.size := by
  have hcount : ∀ i, (s'.generationAt i).toNat =
      (s.generationAt i).toNat + (s.freed s' i).toNat := by
    intro i
    have hi := hlasts i
    exact h.toNat_generationAt (by omega)
  constructor
  · intro i
    rw [UInt32.le_iff_toNat_le, hcount i]
    omega
  · intro i
    have hi := hlasts i
    rw [hcount i]
    omega

/-- **While the generations grow, an issued handle stays issued.** -/
theorem Evolves.issued {s s' : Store sort α} (h : Evolves s s')
    (hgrow : ∀ i, s.generationAt i ≤ s'.generationAt i) {c : Handle sort} (hc : s.Issued c) :
    s'.Issued c := by
  obtain ⟨slot, hslot, hg⟩ := hc
  obtain ⟨slot', hslot', hcase⟩ := h.slot _ slot hslot
  have hle : slot.generation ≤ slot'.generation := by
    have hslots := hgrow c.slot
    simpa [generationAt, hslot, hslot'] using hslots
  refine ⟨slot', hslot', ?_⟩
  rcases hg with hlt | ⟨he, hf⟩
  · exact Or.inl (UInt32.lt_of_lt_of_le hlt hle)
  · rcases hcase with ⟨hg', hf'⟩ | ⟨hg', _, _⟩
    · exact Or.inr ⟨he.trans hg'.symm, hf' hf⟩
    · refine Or.inl (UInt32.lt_of_le_of_ne (he ▸ hle) fun e => ?_)
      rw [← e, he] at hg'
      simp at hg'

/-- **While the generations grow, a handle whose node is gone names nothing any more.** -/
theorem Evolves.stays_gone {s s' : Store sort α} (h : Evolves s s')
    (hgrow : ∀ i, s.generationAt i ≤ s'.generationAt i) {c : Handle sort} (hc : s.Issued c)
    (hgone : s.contains c = false) : s'.contains c = false := by
  have hnone : s.get? c = none := Option.not_isSome_iff_eq_none.mp (Bool.eq_false_iff.mp hgone)
  obtain ⟨slot, hslot, hg⟩ := hc
  obtain ⟨slot', hslot', _⟩ := h.slot _ slot hslot
  have hle : slot.generation ≤ slot'.generation := by
    have hslots := hgrow c.slot
    simpa [generationAt, hslot, hslot'] using hslots
  have hlater : c.generation < slot.generation := by
    rcases hg with hlt | ⟨he, hfilled⟩
    · exact hlt
    · rw [get?, hslot] at hnone
      simp only [he, if_true] at hnone
      rw [hnone] at hfilled
      cases hfilled
  have hne : slot'.generation ≠ c.generation :=
    fun e => absurd (UInt32.lt_of_lt_of_le hlater hle) (e ▸ UInt32.lt_irrefl _)
  simp [contains, get?, hslot', hne]

/-! ## 6. Listing and counting -/

/-- The entries of a store are its nodes under the handles that name them. -/
theorem mem_entries_iff {s : Store sort α} {h : Handle sort} {a : α} :
    (h, a) ∈ s.entries ↔ s.get? h = some a := by
  rw [get?_eq_some_iff]
  unfold entries
  rw [List.mem_filterMap]
  constructor
  · rintro ⟨⟨slot, i⟩, hmem, he⟩
    rw [List.mem_zipIdx_iff_getElem?, Array.getElem?_toList] at hmem
    obtain ⟨b, hb, e⟩ := Option.map_eq_some_iff.mp he
    cases e
    rw [hmem, ← hb]
  · intro hslot
    refine ⟨(⟨h.generation, some a⟩, h.slot), ?_, rfl⟩
    rw [List.mem_zipIdx_iff_getElem?, Array.getElem?_toList]
    exact hslot

/-- Distinct live handles are at most as many as the store has slots. -/
theorem length_le_capacity {s : Store sort α} {hs : List (Handle sort)} (hnd : hs.Nodup)
    (hlive : ∀ h ∈ hs, (s.get? h).isSome) : hs.length ≤ s.capacity := by
  have hslots : (hs.map (·.slot)).Nodup := by
    refine List.Nodup.map_on (fun h hh h' hh' e => ?_) hnd
    obtain ⟨a, ha⟩ := Option.isSome_iff_exists.mp (hlive h hh)
    obtain ⟨a', ha'⟩ := Option.isSome_iff_exists.mp (hlive h' hh')
    exact eq_of_slot_eq ha ha' e
  have hsub : (hs.map (·.slot)).toFinset ⊆ Finset.range s.capacity := by
    intro i hi
    obtain ⟨h, hh, rfl⟩ := List.mem_map.mp (List.mem_toFinset.mp hi)
    obtain ⟨a, ha⟩ := Option.isSome_iff_exists.mp (hlive h hh)
    exact Finset.mem_range.mpr (slot_lt_of_get? ha)
  have hcard := Finset.card_le_card hsub
  rw [List.toFinset_card_of_nodup hslots, List.length_map, Finset.card_range] at hcard
  exact hcard

end Store

end ScopeGraph
