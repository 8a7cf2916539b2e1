/-
  File:      ScopeGraph/Store.lean
  Subject:   A store of nodes with reusable slots and generations.

  Nodes live in numbered slots. Freeing a node empties its slot, moves the
  slot's generation on by one (modulo `2 ^ 32`) and makes the slot the next
  one to be filled; a slot that was never used starts at generation zero.
  The look-up `get?` answers only for the generation a handle was made at.

  * `insert` fills a slot and gives its handle; `erase` frees one;
  * `modify` changes a node in place and keeps its handle;
  * `entries` lists the live nodes in slot order, `size` counts them.
-/
import ScopeGraph.Handle

namespace ScopeGraph

/-- A slot: its generation, and the node in it if it is filled. -/
structure Slot (α : Type) where
  generation : UInt32 := 0
  value : Option α := none
  deriving DecidableEq, Repr, Inhabited

/-- Slots, and the empty ones among them, the last freed first. -/
structure Store (sort : NodeSort) (α : Type) where
  slots : Array (Slot α) := #[]
  free : List Nat := []
  deriving DecidableEq, Repr, Inhabited

namespace Store

variable {sort : NodeSort} {α : Type}

/-! ## 1. Looking up -/

/-- The node a handle names, unless the handle is stale. -/
def get? (s : Store sort α) (h : Handle sort) : Option α :=
  match s.slots[h.slot]? with
  | some slot => if slot.generation = h.generation then slot.value else none
  | none => none

/-- Whether a handle names a node. -/
def contains (s : Store sort α) (h : Handle sort) : Bool := (s.get? h).isSome

/-- The number of live nodes: all slots but the free ones. -/
def size (s : Store sort α) : Nat := s.slots.size - s.free.length

/-- The number of slots, filled or free. -/
def capacity (s : Store sort α) : Nat := s.slots.size

/-- The live nodes with their handles, in slot order. -/
def entries (s : Store sort α) : List (Handle sort × α) :=
  s.slots.toList.zipIdx.filterMap fun p =>
    p.1.value.map fun a => (⟨p.2, p.1.generation⟩, a)

/-! ## 2. Changing -/

/-- The store with one more node, and the node's handle. -/
def insert (s : Store sort α) (a : α) : Handle sort × Store sort α :=
  match s.free with
  | i :: rest =>
    let generation := (s.slots[i]?.getD {}).generation
    (⟨i, generation⟩,
      { slots := s.slots.setIfInBounds i ⟨generation, some a⟩, free := rest })
  | [] => (⟨s.slots.size, 0⟩, { s with slots := s.slots.push ⟨0, some a⟩ })

/-- The store with the node of a handle changed; a stale handle changes
    nothing. -/
def modify (s : Store sort α) (h : Handle sort) (f : α → α) : Store sort α :=
  match s.get? h with
  | some a => { s with slots := s.slots.setIfInBounds h.slot ⟨h.generation, some (f a)⟩ }
  | none => s

/-- The store without the node of a handle; a stale handle frees nothing. -/
def erase (s : Store sort α) (h : Handle sort) : Store sort α :=
  match s.get? h with
  | some _ =>
    { slots := s.slots.setIfInBounds h.slot ⟨h.generation + 1, none⟩
      free := h.slot :: s.free }
  | none => s

/-! ## 3. What a change does to look-ups -/

/-- A live handle carries the generation of its slot. -/
theorem slot_of_get? {s : Store sort α} {h : Handle sort} {a : α} (ha : s.get? h = some a) :
    s.slots[h.slot]? = some ⟨h.generation, some a⟩ := by
  unfold get? at ha
  split at ha
  · next slot hslot =>
    split at ha
    · next hgen =>
      rw [hslot]
      cases slot
      simp_all
    · cases ha
  · cases ha

/-- The slot of a live handle is one of the store's. -/
theorem slot_lt_of_get? {s : Store sort α} {h : Handle sort} {a : α} (ha : s.get? h = some a) :
    h.slot < s.slots.size := by
  have hslot := slot_of_get? ha
  exact (Array.getElem?_eq_some_iff.mp hslot).1

/-- Two live handles of one slot are the same handle. -/
theorem eq_of_slot_eq {s : Store sort α} {h h' : Handle sort} {a a' : α}
    (ha : s.get? h = some a) (ha' : s.get? h' = some a') (hslot : h.slot = h'.slot) :
    h = h' := by
  have hs := slot_of_get? ha
  rw [hslot, slot_of_get? ha'] at hs
  cases h
  cases h'
  simp_all

/-- Another handle of a live handle's slot is stale. -/
theorem get?_eq_none_of_slot_eq {s : Store sort α} {h h' : Handle sort} {a : α}
    (ha : s.get? h = some a) (hslot : h.slot = h'.slot) (hne : h' ≠ h) : s.get? h' = none := by
  cases ha' : s.get? h' with
  | none => rfl
  | some a' => exact absurd (eq_of_slot_eq ha ha' hslot).symm hne

/-- Two handles of one slot that differ, differ in their generation. -/
theorem generation_ne {h h' : Handle sort} (hslot : h.slot = h'.slot) (hne : h' ≠ h) :
    h.generation ≠ h'.generation := by
  intro hgen
  apply hne
  cases h
  cases h'
  simp_all

/-- A changed node is found changed. -/
theorem get?_modify_self (s : Store sort α) (h : Handle sort) (f : α → α) :
    (s.modify h f).get? h = (s.get? h).map f := by
  unfold modify
  split
  · next a ha =>
    rw [ha]
    simp [get?, slot_lt_of_get? ha]
  · next ha => simp [ha]

/-- Changing one node leaves the others as they are. -/
theorem get?_modify_of_ne (s : Store sort α) {h h' : Handle sort} (f : α → α) (hne : h' ≠ h) :
    (s.modify h f).get? h' = s.get? h' := by
  unfold modify
  split
  · next a ha =>
    by_cases hslot : h.slot = h'.slot
    · rw [get?_eq_none_of_slot_eq ha hslot hne]
      simp [get?, ← hslot, slot_lt_of_get? ha, generation_ne hslot hne]
    · simp [get?, hslot]
  · rfl

/-- A freed handle names nothing. -/
theorem get?_erase_self (s : Store sort α) (h : Handle sort) : (s.erase h).get? h = none := by
  unfold erase
  split
  · next a ha => simp [get?, slot_lt_of_get? ha]
  · next ha => exact ha

/-- Freeing one node leaves the others as they are. -/
theorem get?_erase_of_ne (s : Store sort α) {h h' : Handle sort} (hne : h' ≠ h) :
    (s.erase h).get? h' = s.get? h' := by
  unfold erase
  split
  · next a ha =>
    by_cases hslot : h.slot = h'.slot
    · rw [get?_eq_none_of_slot_eq ha hslot hne]
      simp [get?, ← hslot, slot_lt_of_get? ha]
    · simp [get?, hslot]
  · rfl

end Store

end ScopeGraph
