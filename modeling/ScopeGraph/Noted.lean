/-
  File:      ScopeGraph/Noted.lean
  Subject:   Answers that come with warnings.

  `Noted α` is an answer with the warnings met on the way to it. The warnings
  are output only: no answer depends on a warning given before it
  (`Noted.value_bind`).
-/
import ScopeGraph.Warning

namespace ScopeGraph

/-! ## 1. Answers with warnings -/

/-- An answer, and the warnings met on the way to it, in order. -/
structure Noted (α : Type) where
  value : α
  warnings : List Warning := []
  deriving Repr

namespace Noted

instance : Monad Noted where
  pure a := ⟨a, []⟩
  bind x f := ⟨(f x.value).value, x.warnings ++ (f x.value).warnings⟩

/-- No answer and a warning, where something failed. -/
def ofExcept {α : Type} : Except Warning α → Noted (Option α)
  | .ok a => ⟨some a, []⟩
  | .error w => ⟨none, [w]⟩

@[simp] theorem value_pure {α : Type} (a : α) : (pure a : Noted α).value = a := rfl

@[simp] theorem value_bind {α β : Type} (x : Noted α) (f : α → Noted β) :
    (x >>= f).value = (f x.value).value := rfl

@[simp] theorem warnings_pure {α : Type} (a : α) : (pure a : Noted α).warnings = [] := rfl

@[simp] theorem warnings_bind {α β : Type} (x : Noted α) (f : α → Noted β) :
    (x >>= f).warnings = x.warnings ++ (f x.value).warnings := rfl

@[simp] theorem value_ofExcept {α : Type} (x : Except Warning α) :
    (ofExcept x).value = x.toOption := by
  cases x <;> rfl

@[ext] theorem ext_value {α : Type} {x y : Noted α} (hv : x.value = y.value)
    (hw : x.warnings = y.warnings) : x = y := by
  cases x
  cases y
  cases hv
  cases hw
  rfl

instance : LawfulMonad Noted :=
  LawfulMonad.mk' Noted
    (fun x => ext_value rfl (List.append_nil x.warnings))
    (fun _ _ => rfl)
    (fun x f g => ext_value rfl
      (List.append_assoc x.warnings (f x.value).warnings (g (f x.value).value).warnings))

end Noted

/-! ## 2. Answers for lists -/

/-- The answers for all items of a list, joined in order, the effects too. -/
def gatherM {m : Type → Type} [Monad m] {α β : Type} (f : α → m (List β)) :
    List α → m (List β)
  | [] => pure []
  | a :: rest => do
    let here ← f a
    let later ← gatherM f rest
    pure (here ++ later)

/-- Of answers with warnings, the joined answer is the answers joined. -/
theorem Noted.value_gatherM {α β : Type} (f : α → Noted (List β)) (as : List α) :
    (gatherM f as).value = as.flatMap fun a => (f a).value := by
  induction as with
  | nil => rfl
  | cons a rest ih =>
    rw [List.flatMap_cons, ← ih]
    rfl

end ScopeGraph
