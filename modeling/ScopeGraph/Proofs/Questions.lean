/-
  File:      ScopeGraph/Proofs/Questions.lean
  Subject:   Reasoning about questions: what they keep of the memo, and what
             their answers say.

  `Query.Yields P Q q`: from a memo that satisfies `P` the question `q` leads
  to one that satisfies `P`, and its answer satisfies `Q`. A question is put
  together from few parts, and `Yields` goes through all of them.
-/
import ScopeGraph.Query

namespace ScopeGraph

namespace Query

variable {α β : Type}

theorem answer_bind (q : Query α) (f : α → Query β) (m : HopMemo) :
    (q >>= f).answer m = (f (q.answer m)).answer (q.memoAfter m) := rfl

theorem memoAfter_bind (q : Query α) (f : α → Query β) (m : HopMemo) :
    (q >>= f).memoAfter m = (f (q.answer m)).memoAfter (q.memoAfter m) := rfl

/-- From a memo with `P` the question leads to one with `P`, and its answer
    has `Q`. -/
def Yields (P : HopMemo → Prop) (Q : α → Prop) (q : Query α) : Prop :=
  ∀ m, P m → Q (q.answer m) ∧ P (q.memoAfter m)

variable {P : HopMemo → Prop} {Q : α → Prop} {R : β → Prop}

theorem Yields.mono {Q' : α → Prop} {q : Query α} (hq : Yields P Q q) (h : ∀ a, Q a → Q' a) :
    Yields P Q' q :=
  fun m hm => ⟨h _ (hq m hm).1, (hq m hm).2⟩

theorem yields_pure {a : α} (ha : Q a) : Yields P Q (pure a) := fun _ hm => ⟨ha, hm⟩

theorem yields_warn (x : Warning) : Yields P (fun _ => True) (warn x) := fun _ hm => ⟨trivial, hm⟩

/-- An answer that needs no memo. -/
theorem yields_lift {x : Noted α} (hx : Q x.value) : Yields P Q (liftM x : Query α) :=
  fun _ hm => ⟨hx, hm⟩

theorem Yields.bind {q : Query α} {f : α → Query β} (hq : Yields P Q q)
    (hf : ∀ a, Q a → Yields P R (f a)) : Yields P R (q >>= f) := by
  intro m hm
  obtain ⟨ha, hm'⟩ := hq m hm
  rw [answer_bind, memoAfter_bind]
  exact hf _ ha _ hm'

/-- What follows an answer that needs no memo. -/
theorem yields_lift_bind {x : Noted α} {f : α → Query β} (hf : Yields P R (f x.value)) :
    Yields P R (liftM x >>= f) :=
  fun m hm => hf m hm

/-- Nothing is the answer where nothing is asked for. -/
theorem yields_nothing {S : β → Prop} (hS : ∀ b, ¬ S b) :
    Yields P (fun bs => ∀ b, b ∈ bs ↔ S b) (pure []) :=
  yields_pure fun b => iff_of_false List.not_mem_nil (hS b)

/-- If each item of a list is answered with exactly what `S` relates to it, the
    joined answer has exactly what `S` relates to some item. -/
theorem yields_gatherM {f : α → Query (List β)} {S : α → β → Prop} (as : List α)
    (hf : ∀ a ∈ as, Yields P (fun bs => ∀ b, b ∈ bs ↔ S a b) (f a)) :
    Yields P (fun bs => ∀ b, b ∈ bs ↔ ∃ a ∈ as, S a b) (gatherM f as) := by
  induction as with
  | nil => exact yields_pure (by simp)
  | cons a rest ih =>
    refine (hf a List.mem_cons_self).bind fun here hhere => ?_
    refine (ih fun x hx => hf x (List.mem_cons_of_mem a hx)).bind fun later hlater => ?_
    refine yields_pure fun b => ?_
    rw [List.mem_append, hhere, hlater]
    simp only [List.mem_cons, exists_eq_or_imp]

/-- If the answer for each item of a list is known, so is the joined answer. -/
theorem yields_gatherM_eq {f : α → Query (List β)} {answer : α → List β} (as : List α)
    (hf : ∀ a ∈ as, Yields P (· = answer a) (f a)) :
    Yields P (· = as.flatMap answer) (gatherM f as) := by
  induction as with
  | nil => exact yields_pure rfl
  | cons a rest ih =>
    obtain ⟨ha, hrest⟩ := List.forall_mem_cons.mp hf
    refine ha.bind fun here hhere => (ih hrest).bind fun later hlater => ?_
    rw [hhere, hlater]
    exact yields_pure rfl

/-- What holds of all answers for the items of a list holds of the joined answer. -/
theorem yields_gatherM_all {f : α → Query (List β)} (as : List α)
    (hf : ∀ a ∈ as, Yields P (fun bs => ∀ b ∈ bs, R b) (f a)) :
    Yields P (fun bs => ∀ b ∈ bs, R b) (gatherM f as) := by
  induction as with
  | nil => exact yields_pure fun _ hb => absurd hb List.not_mem_nil
  | cons a rest ih =>
    refine (hf a List.mem_cons_self).bind fun here hhere => ?_
    refine (ih fun x hx => hf x (List.mem_cons_of_mem _ hx)).bind fun later hlater => ?_
    refine yields_pure fun b hb => ?_
    rcases List.mem_append.mp hb with hb | hb
    · exact hhere b hb
    · exact hlater b hb

theorem yields_foldlM {f : β → α → Query β} (hf : ∀ b a, R b → Yields P R (f b a)) (as : List α)
    {b : β} (hb : R b) : Yields P R (as.foldlM f b) := by
  induction as generalizing b with
  | nil => exact yields_pure hb
  | cons a rest ih =>
    rw [List.foldlM_cons]
    exact (hf b a hb).bind fun _ hb' => ih hb'

/-! ## Questions that keep a property of the memo -/

/-- From a memo with `P` the question leads to one with `P`. -/
def Keeps (P : HopMemo → Prop) (q : Query α) : Prop := Yields P (fun _ => True) q

theorem Yields.keeps {q : Query α} (hq : Yields P Q q) : Keeps P q := hq.mono fun _ _ => trivial

theorem keeps_pure (a : α) : Keeps P (pure a) := yields_pure trivial

theorem keeps_lift (x : Noted α) : Keeps P (liftM x : Query α) := yields_lift trivial

theorem Keeps.bind {q : Query α} {f : α → Query β} (hq : Keeps P q) (hf : ∀ a, Keeps P (f a)) :
    Keeps P (q >>= f) :=
  Yields.bind hq fun a _ => hf a

theorem keeps_gatherM {f : α → Query (List β)} (hf : ∀ a, Keeps P (f a)) (as : List α) :
    Keeps P (gatherM f as) := by
  induction as with
  | nil => exact keeps_pure []
  | cons a rest ih => exact (hf a).bind fun _ => ih.bind fun _ => keeps_pure _

/-- What is in the answer for one item is in the joined answer. -/
theorem yields_mem_gatherM {f : α → Query (List β)} (hf : ∀ a, Keeps P (f a)) {as : List α} {a : α}
    (ha : a ∈ as) {b : β} (hb : Yields P (b ∈ ·) (f a)) : Yields P (b ∈ ·) (gatherM f as) := by
  induction as with
  | nil => cases ha
  | cons x rest ih =>
    rcases List.mem_cons.mp ha with rfl | ha
    · refine hb.bind fun here hhere => Yields.bind (keeps_gatherM hf rest) fun later _ => ?_
      exact yields_pure (List.mem_append_left later hhere)
    · refine Yields.bind (hf x) fun here _ => (ih ha).bind fun later hlater => ?_
      exact yields_pure (List.mem_append_right here hlater)

theorem keeps_foldlM {f : β → α → Query β} (hf : ∀ b a, Keeps P (f b a)) (as : List α) (b : β) :
    Keeps P (as.foldlM f b) := by
  induction as generalizing b with
  | nil => exact keeps_pure b
  | cons a rest ih =>
    rw [List.foldlM_cons]
    exact (hf b a).bind fun b' => ih b'

end Query

end ScopeGraph
