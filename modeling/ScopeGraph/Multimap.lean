/-
  File:      ScopeGraph/Multimap.lean
  Subject:   Maps with several values to a key, in order of insertion.

  Keys stand in the order in which they first came in, values in the order
  in which they came in under their key. A key whose last value goes, goes
  too, and the others keep their order.
-/

namespace ScopeGraph

/-- Each key with its values; keys and values in order of insertion. -/
structure Multimap (κ α : Type) where
  entries : List (κ × List α) := []
  deriving DecidableEq, Repr, Inhabited

namespace Multimap

variable {κ α : Type} [DecidableEq κ]

/-! ## 1. Looking up and adding -/

/-- The values of a key in a list of entries. -/
def valuesIn (k : κ) : List (κ × List α) → List α
  | [] => []
  | (k', vs) :: rest => if k' = k then vs else valuesIn k rest

/-- The values of a key. -/
def find (m : Multimap κ α) (k : κ) : List α := valuesIn k m.entries

/-- All keys, each once. -/
def keys (m : Multimap κ α) : List κ := m.entries.map Prod.fst

/-- All values, key by key. -/
def values (m : Multimap κ α) : List α := m.entries.flatMap Prod.snd

/-- All pairs of a key and one of its values, key by key. -/
def pairs (m : Multimap κ α) : List (κ × α) :=
  m.entries.flatMap fun e => e.2.map fun a => (e.1, a)

/-- Whether the map has no key. -/
def isEmpty (m : Multimap κ α) : Bool := m.entries.isEmpty

/-- One value added at the end of a key's values. -/
def insertIn (k : κ) (a : α) : List (κ × List α) → List (κ × List α)
  | [] => [(k, [a])]
  | (k', vs) :: rest =>
    if k' = k then (k', vs ++ [a]) :: rest else (k', vs) :: insertIn k a rest

/-- The map with one more value under a key, also if it is there already. -/
def insert (m : Multimap κ α) (k : κ) (a : α) : Multimap κ α :=
  ⟨insertIn k a m.entries⟩

/-- A value put under a key comes last among the values of the key. -/
@[simp] theorem find_insert_self (m : Multimap κ α) (k : κ) (a : α) :
    (m.insert k a).find k = m.find k ++ [a] := by
  unfold insert find
  induction m.entries with
  | nil => simp [insertIn, valuesIn]
  | cons e rest ih =>
    obtain ⟨k', vs⟩ := e
    by_cases hk : k' = k
    · simp [insertIn, valuesIn, hk]
    · simpa [insertIn, valuesIn, hk] using ih

/-- A value put under a key changes nothing under the others. -/
theorem find_insert_of_ne (m : Multimap κ α) {k k' : κ} (a : α) (hne : k' ≠ k) :
    (m.insert k a).find k' = m.find k' := by
  unfold insert find
  induction m.entries with
  | nil => simp [insertIn, valuesIn, hne.symm]
  | cons e rest ih =>
    obtain ⟨k₀, vs⟩ := e
    by_cases hk : k₀ = k
    · subst hk
      simp [insertIn, valuesIn, hne.symm]
    · by_cases hk' : k₀ = k'
      · subst hk'
        simp [insertIn, valuesIn, hk]
      · simpa [insertIn, valuesIn, hk, hk'] using ih

/-! ## 2. Values kept once, and taking away -/

variable [DecidableEq α]

/-- The map with a value under a key, once. -/
def insertNew (m : Multimap κ α) (k : κ) (a : α) : Multimap κ α :=
  if a ∈ m.find k then m else m.insert k a

/-- The first occurrence of a value under a key taken away. -/
def eraseIn (k : κ) (a : α) : List (κ × List α) → List (κ × List α)
  | [] => []
  | (k', vs) :: rest =>
    if k' = k then
      if a ∈ vs then
        let left := vs.erase a
        if left = [] then rest else (k', left) :: rest
      else (k', vs) :: rest
    else (k', vs) :: eraseIn k a rest

/-- The map without the first occurrence of a value under a key. -/
def erase (m : Multimap κ α) (k : κ) (a : α) : Multimap κ α :=
  ⟨eraseIn k a m.entries⟩

/-- A value taken from a key changes nothing under the others. -/
theorem find_erase_of_ne (m : Multimap κ α) {k k' : κ} (a : α) (hne : k' ≠ k) :
    (m.erase k a).find k' = m.find k' := by
  unfold erase find
  induction m.entries with
  | nil => rfl
  | cons e rest ih =>
    obtain ⟨k₀, vs⟩ := e
    by_cases hk : k₀ = k
    · subst hk
      by_cases ha : a ∈ vs
      · by_cases hl : vs.erase a = []
        · simp [eraseIn, valuesIn, ha, hl, hne.symm]
        · simp [eraseIn, valuesIn, ha, hl, hne.symm]
      · simp [eraseIn, valuesIn, ha]
    · by_cases hk' : k₀ = k'
      · subst hk'
        simp [eraseIn, valuesIn, hk]
      · simpa [eraseIn, valuesIn, hk, hk'] using ih

end Multimap

end ScopeGraph
