/-
  File:      ScopeGraph/Proofs/DeclarationNumbers.lean
  Subject:   The numbers that declarations get in a file.

  A use names a declaration by its number in the file. The file keeps a map from
  declarations to numbers, and a list of places, which grows at its end and in which
  the place of a number is emptied once the number is forgotten. A declaration may also
  go without its number being forgotten, if it is of another file or of none; then it
  is its handle that nobody gets again.

  * `DeclNumbers.Inverse`: the map and the list are inverse to each other;
  * `DeclNumbers.Tallies`: the map, the list, and the numbers given so far agree. This
    is kept by forgetting (`Tallies.forget`) and by a new number (`Tallies.assign`);
  * `Workspace.SameNumbers`: most changes leave the numbers of all files alone;
  * `Workspace.OnlyForgets`: in a teardown numbers are forgotten, of declarations that
    are not there any more;
  * `Workspace.GivesNoNumber`: no more than that in any call but one that asks for a
    number. A new file has no numbers;
  * `Workspace.Numbering`: what a call that asks for a number can come to;
  * `Workspace.Recorded`: all files agree with the numbers given so far. Every call
    keeps this (`Recorded.step`), so every run does (`Recorded.run`);
  * `Workspace.numbers_stable`: what this means for numbers and uses.
-/
import ScopeGraph.Proofs.Journal

namespace ScopeGraph

/-! ## 1. The numbers of one file -/

namespace DeclNumbers

variable {n : DeclNumbers} {d : DeclId}

/-- **The two structures are inverse to each other**: a declaration stands at a place
    exactly if the place is its number. -/
def Inverse (n : DeclNumbers) : Prop :=
  ∀ d k, n.places[k]? = some (some d) ↔ (n.find? d).map UInt32.toNat = some k

theorem find?_filter_ne (l : List (DeclId × UInt32)) (d e : DeclId) :
    (l.filter (·.1 ≠ d)).find? (·.1 = e) = if e = d then none else l.find? (·.1 = e) := by
  rw [List.find?_filter]
  split
  · next he =>
    refine List.find?_eq_none.mpr fun x _ => ?_
    simp [he]
  · next he =>
    congr 1
    funext x
    by_cases hx : x.1 = e <;> simp [hx, he]

theorem find?_assign (n : DeclNumbers) (d e : DeclId) :
    (n.assign d).find? e = if e = d then some n.next else n.find? e := by
  unfold find? assign
  rw [List.find?_cons]
  by_cases he : e = d
  · simp [he]
  · rw [find?_filter_ne, if_neg he, if_neg he]
    simp [Ne.symm he]

theorem find?_forget (n : DeclNumbers) (d e : DeclId) :
    (n.forget d).find? e = if e = d then none else n.find? e := by
  unfold forget
  cases hd : n.find? d with
  | none =>
    dsimp only
    split
    · next he => rw [he, hd]
    · rfl
  | some i =>
    unfold find?
    dsimp only
    rw [find?_filter_ne]
    split <;> rfl

theorem toNat_next (h : n.places.length < UInt32.size) : n.next.toNat = n.places.length :=
  UInt32.toNat_ofNat_of_lt' h

theorem length_forget (n : DeclNumbers) (d : DeclId) :
    (n.forget d).places.length = n.places.length := by
  unfold forget
  cases n.find? d with
  | none => rfl
  | some i => exact List.length_set

theorem getElem?_assign (n : DeclNumbers) (d : DeclId) (k : Nat) :
    (n.assign d).places[k]? = if n.places.length = k then some (some d) else n.places[k]? := by
  unfold assign
  grind

theorem inverse_new : Inverse {} := by
  intro d k
  constructor <;> nofun

namespace Inverse

/-- A declaration without a number has no place. -/
theorem not_mem (h : n.Inverse) (hd : n.find? d = none) : some d ∉ n.places := by
  intro hmem
  obtain ⟨k, hk⟩ := List.mem_iff_getElem?.mp hmem
  have hnumber := (h d k).mp hk
  rw [hd] at hnumber
  cases hnumber

/-- What is forgotten goes from its place, and from no other. -/
theorem places_forget (h : n.Inverse) (d : DeclId) :
    (n.forget d).places = n.places.map fun u => if u = some d then none else u := by
  refine List.ext_getElem? fun k => ?_
  rw [List.getElem?_map]
  unfold DeclNumbers.forget
  cases hd : n.find? d with
  | none =>
    cases hk : n.places[k]? with
    | none => rfl
    | some u =>
      have hu : u ≠ some d := fun e => h.not_mem hd (e ▸ List.mem_of_getElem? hk)
      rw [Option.map_some, if_neg hu]
  | some i =>
    have hplace : n.places[i.toNat]? = some (some d) := (h d _).mpr (congrArg _ hd)
    dsimp only
    rw [List.getElem?_set]
    split
    · next hki =>
      rw [← hki, hplace, Option.map_some, if_pos rfl,
        if_pos (List.getElem?_eq_some_iff.mp hplace).1]
    · next hki =>
      cases hk : n.places[k]? with
      | none => rfl
      | some u =>
        have hu : u ≠ some d := by
          intro e
          have hnumber := (h d k).mp (e ▸ hk)
          rw [hd] at hnumber
          exact hki (Option.some.inj hnumber)
        rw [Option.map_some, if_neg hu]

/-- **Forgetting keeps the two inverse.** -/
theorem forget (h : n.Inverse) (d : DeclId) : (n.forget d).Inverse := by
  intro e k
  rw [h.places_forget, find?_forget, List.getElem?_map]
  by_cases he : e = d
  · subst he
    rw [if_pos rfl]
    constructor
    · intro hk
      obtain ⟨u, _, hu⟩ := Option.map_eq_some_iff.mp hk
      split at hu
      · cases hu
      · next hne => exact absurd hu hne
    · nofun
  · rw [if_neg he, ← h e k]
    constructor
    · intro hk
      obtain ⟨u, hplace, hu⟩ := Option.map_eq_some_iff.mp hk
      split at hu
      · cases hu
      · exact hu ▸ hplace
    · intro hk
      rw [hk, Option.map_some, if_neg fun hne => he (Option.some.inj hne)]

/-- **A new number keeps the two inverse**, as long as it fits into a word. -/
theorem assign (h : n.Inverse) (hfew : n.places.length < UInt32.size) (hd : n.find? d = none) :
    (n.assign d).Inverse := by
  intro e k
  rw [getElem?_assign, find?_assign]
  have hend : n.places[n.places.length]? = none := List.getElem?_eq_none (Nat.le_refl _)
  by_cases he : e = d
  · subst he
    rw [if_pos rfl, Option.map_some, toNat_next hfew, Option.some.injEq]
    refine ⟨fun hk => ?_, fun hk => if_pos hk⟩
    by_contra hne
    rw [if_neg hne] at hk
    exact h.not_mem hd (List.mem_of_getElem? hk)
  · rw [if_neg he, ← h e k]
    split
    · next hk =>
      rw [← hk, hend]
      refine iff_of_false (fun hde => ?_) nofun
      cases hde
      exact he rfl
    · rfl

end Inverse

/-! ## 2. The numbers given so far -/

/-- **Numbers are forgotten, each of a declaration that is not there**, and nothing else
    is done to them. -/
def ForgetsGone (g : Graph) : DeclNumbers → DeclNumbers → Prop :=
  Relation.ReflTransGen fun n n' => ∃ d, g.hasDeclaration d = false ∧ n' = n.forget d

namespace ForgetsGone

variable {g g' : Graph} {n' : DeclNumbers}

theorem mono (h : ForgetsGone g n n')
    (hgone : ∀ d, g'.hasDeclaration d = true → g.hasDeclaration d = true) :
    ForgetsGone g' n n' := by
  refine Relation.ReflTransGen.mono (fun _ _ hstep => ?_) _ _ h
  obtain ⟨d, hd, rfl⟩ := hstep
  exact ⟨d, Bool.eq_false_iff.mpr fun hlive => Bool.eq_false_iff.mp hd (hgone d hlive), rfl⟩

theorem length (h : ForgetsGone g n n') : n'.places.length = n.places.length := by
  induction h with
  | refl => rfl
  | tail _ hstep ih =>
    obtain ⟨d, _, rfl⟩ := hstep
    exact (length_forget _ d).trans ih

end ForgetsGone

/-- **The two structures of a file, and the numbers given in it.** They are inverse to
    each other. A number is the place of its declaration, unless the place is empty and
    the declaration has gone; what stands at a place was given its number. -/
structure Tallies (g : Graph) (n : DeclNumbers) (N : DeclId → Nat → Prop) : Prop where
  inverse : n.Inverse
  placed : ∀ d k, N d k → n.places[k]? = some (some d) ∨
    n.places[k]? = some none ∧ g.hasDeclaration d = false
  named : ∀ k d, n.places[k]? = some (some d) → N d k
  number : ∀ d i j, N d i → N d j → i = j
  owner : ∀ d d' k, N d k → N d' k → d = d'

namespace Tallies

variable {g g' : Graph} {n' : DeclNumbers} {N N' : DeclId → Nat → Prop}

theorem new (hN : ∀ d k, ¬ N d k) : Tallies g {} N where
  inverse := inverse_new
  placed d k h := absurd h (hN d k)
  named _ _ h := by cases h
  number d i _ h := absurd h (hN d i)
  owner d _ k h := absurd h (hN d k)

theorem congr (h : Tallies g n N) (hN : ∀ d k, N' d k ↔ N d k) : Tallies g n N' := by
  have heq : N' = N := funext fun d => funext fun k => propext (hN d k)
  exact heq ▸ h

/-- Declarations that had a number may go. -/
theorem of_gone (h : Tallies g n N) (hgone : ∀ d k, N d k → g.hasDeclaration d = false →
    g'.hasDeclaration d = false) : Tallies g' n N :=
  { h with placed := fun d k hN => (h.placed d k hN).imp_right (.imp_right (hgone d k hN)) }

/-- Every number that was given is below the number of places. -/
theorem lt_length (h : Tallies g n N) {k : Nat} (hN : N d k) : k < n.places.length := by
  rcases h.placed d k hN with hk | ⟨hk, _⟩ <;> exact (List.getElem?_eq_some_iff.mp hk).1

theorem of_find? (h : Tallies g n N) {i : UInt32} (hi : n.find? d = some i) : N d i.toNat :=
  h.named _ d ((h.inverse d _).mpr (congrArg _ hi))

/-- A declaration that is there and is not in the map was given no number. -/
theorem unnumbered (h : Tallies g n N) (hd : g.hasDeclaration d = true) (hnew : n.find? d = none)
    (k : Nat) : ¬ N d k := by
  intro hN
  rcases h.placed d k hN with hk | ⟨_, hgone⟩
  · exact h.inverse.not_mem hnew (List.mem_of_getElem? hk)
  · rw [hd] at hgone
    cases hgone

/-- **A number is forgotten** of a declaration that is not there. -/
theorem forget (h : Tallies g n N) (hd : g.hasDeclaration d = false) :
    Tallies g (n.forget d) N where
  inverse := h.inverse.forget d
  placed e k hN := by
    rw [h.inverse.places_forget, List.getElem?_map]
    rcases h.placed e k hN with hk | ⟨hk, hgone⟩
    · rw [hk, Option.map_some]
      split
      · next he => exact .inr ⟨rfl, Option.some.inj he ▸ hd⟩
      · exact .inl rfl
    · rw [hk]
      exact .inr ⟨rfl, hgone⟩
  named k e hk := by
    have hnumber := (h.inverse.forget d e k).mp hk
    rw [find?_forget] at hnumber
    split at hnumber
    · cases hnumber
    · exact h.named k e ((h.inverse e k).mpr hnumber)
  number := h.number
  owner := h.owner

theorem forgetsGone (h : Tallies g n N) (hforgets : ForgetsGone g n n') : Tallies g n' N := by
  induction hforgets with
  | refl => exact h
  | tail _ hstep ih =>
    obtain ⟨d, hd, rfl⟩ := hstep
    exact ih.forget hd

/-- **A new number**: no declaration had it, and the declaration had none. -/
theorem assign (h : Tallies g n N) (hfew : n.places.length < UInt32.size)
    (hd : g.hasDeclaration d = true) (hnew : n.find? d = none) :
    Tallies g (n.assign d) fun e k => N e k ∨ e = d ∧ k = n.next.toNat := by
  have hfresh := h.unnumbered hd hnew
  rw [toNat_next hfew]
  constructor
  · exact h.inverse.assign hfew hnew
  · intro e k hgiven
    rcases hgiven with hN | ⟨rfl, rfl⟩
    · rw [getElem?_assign, if_neg (h.lt_length hN).ne']
      exact h.placed e k hN
    · exact .inl ((getElem?_assign n e _).trans (if_pos rfl))
  · intro k e hk
    rw [getElem?_assign] at hk
    split at hk
    · next hend =>
      cases hk
      exact .inr ⟨rfl, hend.symm⟩
    · exact .inl (h.named k e hk)
  · intro e i j hi hj
    rcases hi with hi | ⟨rfl, hi⟩ <;> rcases hj with hj | ⟨he, hj⟩
    · exact h.number e i j hi hj
    · exact absurd (he ▸ hi) (hfresh i)
    · exact absurd hj (hfresh j)
    · exact hi.trans hj.symm
  · intro e e' k hk hk'
    rcases hk with hk | ⟨he, hk⟩ <;> rcases hk' with hk' | ⟨he', hk'⟩
    · exact h.owner e e' k hk hk'
    · exact absurd (h.lt_length hk) (by omega)
    · exact absurd (h.lt_length hk') (by omega)
    · exact he.trans he'.symm

end Tallies

end DeclNumbers

/-! ## 3. Changes that leave the numbers alone -/

/-- The numbers that a context keeps as the top of a file. -/
def Context.numbers (data : Context) : Option DeclNumbers := data.file.map (·.numbers)

theorem Context.numbers_file (data : Context) {f : FileRecord → FileRecord}
    (hf : ∀ r, (f r).numbers = r.numbers) :
    numbers { data with file := data.file.map f } = data.numbers := by
  unfold numbers
  rw [Option.map_map]
  exact congrArg (data.file.map ·) (funext hf)

/-- The numbers of a file. -/
def Graph.numbers? (g : Graph) (t : TopId) : Option DeclNumbers :=
  ((g.context? t.context).map Context.numbers).join

theorem Graph.numbers?_eq_fileRecord? (g : Graph) (t : TopId) :
    g.numbers? t = (g.fileRecord? t).map (·.numbers) := by
  unfold numbers? fileRecord?
  cases g.context? t.context <;> rfl

namespace Workspace.View

/-- The view of the numbers of all files. -/
def numbers := View.ofGraph (.ofContexts Context.numbers)

/-- The view of the numbers of all files, and of which declarations there are. -/
def numbered := View.ofGraph (.ofParts Context.numbers fun _ => ())

theorem overlooksOwners_numbers : numbers.graph.OverlooksOwners where
  owner _ _ := rfl
  uses _ _ := rfl
  declaration _ _ _ _ := rfl

theorem overlooksTree_numbers : numbers.graph.OverlooksTree where
  parent _ _ := rfl
  children _ _ := rfl

theorem overlooksImports_numbers : numbers.OverlooksImports where
  imports _ _ := rfl
  importers _ _ := rfl
  memo _ _ _ := rfl

theorem overlooksContents_numbers : numbers.OverlooksContents where
  graph :=
    { locals := fun _ _ => rfl
      kind := fun _ _ => rfl
      scopeName := fun _ _ => rfl
      propagates := fun _ _ => rfl
      registered := fun _ _ => rfl
      key := fun _ _ => rfl
      others := fun _ _ _ _ _ _ => rfl }
  events _ _ _ := rfl

theorem overlooksImports_numbered : numbered.OverlooksImports where
  imports _ _ := rfl
  importers _ _ := rfl
  memo _ _ _ := rfl

end Workspace.View

namespace Workspace

/-- The numbers of all files are the same. -/
abbrev SameNumbers : Workspace → Workspace → Prop := View.numbers.Same

theorem SameNumbers.numbers? {w w' : Workspace} (h : SameNumbers w w') (t : TopId) :
    w'.graph.numbers? t = w.graph.numbers? t :=
  congrArg Option.join (Graph.View.Same.map_context? (View.Same.graph h) t.context)

end Workspace

/-! ## 4. Teardowns -/

namespace Workspace

open ScopeGraph.Graph DeclNumbers

variable {w w' : Workspace}

/-- **No declaration comes, and in the files that are left numbers are forgotten at
    most.** -/
structure OnlyForgets (w w' : Workspace) : Prop where
  declarations : ∀ d, w'.graph.hasDeclaration d = true → w.graph.hasDeclaration d = true
  numbers : ∀ t n', w'.graph.numbers? t = some n' →
    ∃ n, w.graph.numbers? t = some n ∧ ForgetsGone w'.graph n n'

namespace OnlyForgets

theorem refl (w : Workspace) : OnlyForgets w w := ⟨fun _ => id, fun _ n h => ⟨n, h, .refl⟩⟩

theorem trans {w₁ w₂ w₃ : Workspace} (h₁ : OnlyForgets w₁ w₂) (h₂ : OnlyForgets w₂ w₃) :
    OnlyForgets w₁ w₃ where
  declarations d hd := h₁.declarations d (h₂.declarations d hd)
  numbers t n₃ hn₃ := by
    obtain ⟨n₂, hn₂, hforgets₂⟩ := h₂.numbers t n₃ hn₃
    obtain ⟨n₁, hn₁, hforgets₁⟩ := h₁.numbers t n₂ hn₂
    exact ⟨n₁, hn₁, (hforgets₁.mono h₂.declarations).trans hforgets₂⟩

instance : IsPreorder Workspace OnlyForgets where
  refl := refl
  trans _ _ _ := trans

theorem of_same (h : View.numbered.Same w w') : OnlyForgets w w' where
  declarations d hd := by
    have hsome := congrArg Option.isSome
      (Graph.View.Same.declaration_part (View.Same.graph h) id d)
    rw [Option.isSome_map, Option.isSome_map] at hsome
    exact hsome.symm.trans hd
  numbers t n hn := by
    have hcontext := Graph.View.Same.context_part (View.Same.graph h) id t.context
    exact ⟨n, (congrArg Option.join hcontext).symm.trans hn, .refl⟩

theorem sever (w : Workspace) (c : ContextId) (data : Context) :
    OnlyForgets w (w.sever c data) := by
  refine of_same (View.Same.thenWhenSome (.thenWhenSome (.onGraph (.modifyContext _ c ?mark))
    fun d => .onGraph ?opened) fun key => ?table)
  case mark => exact fun data => data.numbers_file fun _ => rfl
  case opened => exact .clearInternal (fun _ _ => rfl) _ d c
  case table => rfl

theorem release (w : Workspace) (c : ContextId) (data : Context) :
    OnlyForgets w (w.release c data) := by
  have hloosen : OnlyForgets w (w.onGraph (·.loosen c data)) := by
    refine of_same (.onGraph ?_)
    unfold loosen
    cases data.parent with
    | none => exact .refl _
    | some p =>
      cases data.anonymous with
      | true => exact .refl _
      | false => exact .unlinkChild (fun _ _ _ => rfl) (fun _ _ => rfl) (fun _ _ => rfl) _ p c
  refine hloosen.trans ⟨fun d hd => ?_, fun t n hn => ⟨n, ?_, .refl⟩⟩
  · rw [graph_release] at hd
    exact hd
  · rw [graph_release] at hn
    unfold numbers? at hn ⊢
    rw [context?_eraseContext] at hn
    split at hn
    · cases hn
    · exact hn

end OnlyForgets

theorem hasDeclaration_discard (w : Workspace) (d : DeclId) (data : Declaration) (x : DeclId) :
    (w.discard d data).graph.hasDeclaration x = (decide (x ≠ d) && w.graph.hasDeclaration x) := by
  unfold hasDeclaration Store.contains
  rw [declarations_discard, Store.get?_erase]
  split
  · next hx => simp [hx]
  · next hx =>
    rw [(Store.SameSlots.modify w.graph.declarations d _).isSome_get?]
    simp [hx]

/-- The number of a declaration that goes is forgotten in its own file only. -/
theorem numbers?_discard (w : Workspace) (d : DeclId) (data : Declaration) (t : TopId) :
    (w.discard d data).graph.numbers? t = (w.graph.numbers? t).map fun n =>
      if data.context.bind w.graph.topOf? = some t then n.forget d else n := by
  have hsame : (Graph.View.ofContexts Context.numbers).Same w.graph
      (w.graph.withdraw d data.context) := .withdraw (fun _ _ => rfl) _ d data.context
  unfold numbers?
  rw [← hsame.map_context? t.context, context?_discard]
  cases (w.graph.withdraw d data.context).context? t.context with
  | none => rfl
  | some old =>
    simp only [Option.map_some, Option.join_some, Context.numbers, Context.bereft,
      decide_eq_true_eq]
    split <;> cases old.file <;> rfl

theorem OnlyForgets.discard (w : Workspace) (d : DeclId) (data : Declaration) :
    OnlyForgets w (w.discard d data) where
  declarations x hx := by
    rw [hasDeclaration_discard, Bool.and_eq_true] at hx
    exact hx.2
  numbers t n' hn' := by
    rw [numbers?_discard] at hn'
    obtain ⟨n, hn, rfl⟩ := Option.map_eq_some_iff.mp hn'
    refine ⟨n, hn, ?_⟩
    split
    · refine .single ⟨d, ?_, rfl⟩
      rw [hasDeclaration_discard]
      simp
    · exact .refl

end Workspace

namespace Edit

open Workspace Workspace.View

theorem onlyForgets_deleteDeclaration (d : DeclId) : Follows OnlyForgets (deleteDeclaration d) :=
  fun w => after_deleteDeclaration (.refl w) fun data _ => .discard w d data

theorem onlyForgets_deleteContext (c : ContextId) : Follows OnlyForgets (deleteContext c) :=
  follows_deleteContext (fun w c data _ => .sever w c data)
    (fun c target w => .of_same (same_removeImport overlooksImports_numbered c target w))
    (fun c w => .of_same (same_clearImports overlooksImports_numbered c w))
    (fun w c => .of_same (.onGraph (.modifyContext w.graph c fun _ => rfl)))
    onlyForgets_deleteDeclaration (fun w c data _ => .release w c data) c

theorem onlyForgets_clean (c : ContextId) (keep : List Node) : Follows OnlyForgets (clean c keep) :=
  follows_clean onlyForgets_deleteDeclaration onlyForgets_deleteContext c keep

end Edit

/-! ## 5. Every change -/

namespace Workspace

open ScopeGraph.Graph DeclNumbers

variable {w w' : Workspace}

/-- **Numbers are forgotten at most, and a new file has none.** -/
def GivesNoNumber (w w' : Workspace) : Prop :=
  ∀ t n', w'.graph.numbers? t = some n' →
    (∃ n, w.graph.numbers? t = some n ∧ ForgetsGone w'.graph n n') ∨
      ¬ w.graph.Issued (.context t.context) ∧ n' = {}

theorem OnlyForgets.givesNoNumber (h : OnlyForgets w w') : GivesNoNumber w w' :=
  fun t n' hn' => .inl (h.numbers t n' hn')

theorem SameNumbers.givesNoNumber (h : SameNumbers w w') : GivesNoNumber w w' := fun t n hn =>
  .inl ⟨n, (h.numbers? t).symm.trans hn, .refl⟩

theorem givesNoNumber_newContext {made : Context} (htidy : w.graph.contexts.Tidy)
    (hmade : ∀ n, made.numbers = some n → n = {})
    (h : SameNumbers ((Edit.newContext made).after w) w') : GivesNoNumber w w' := by
  intro t n hn
  rw [h.numbers? t] at hn
  have hcontext : ((Edit.newContext made).after w).graph.context? t.context =
      if t.context = w.graph.nextContext made then some made else w.graph.context? t.context :=
    context?_insertContext made htidy t.context
  unfold numbers? at hn
  rw [hcontext] at hn
  split at hn
  · next hnew =>
    refine .inr ⟨?_, hmade n hn⟩
    rw [hnew]
    exact Store.not_issued_insert htidy made
  · exact .inl ⟨n, hn, .refl⟩

theorem givesNoNumber_createContext (htidy : w.graph.contexts.Tidy) (p : ContextId)
    (range : Span) : GivesNoNumber w ((Edit.createContext p range).after w) := by
  cases hp : w.graph.context? p with
  | none =>
    unfold Edit.createContext Edit.after
    rw [Edit.needContext_bind, hp]
    exact SameNumbers.givesNoNumber (.refl w)
  | some parent =>
    rw [Edit.createContext_after hp]
    exact givesNoNumber_newContext htidy (fun n hn => by cases hn)
      (Edit.same_addChild View.overlooksContents_numbers View.overlooksTree_numbers p _ _)

theorem givesNoNumber_createAnonymous (htidy : w.graph.contexts.Tidy) (p : ContextId)
    (range : Span) : GivesNoNumber w ((Edit.createAnonymous p range).after w) := by
  unfold Edit.createAnonymous Edit.after
  rw [Edit.needContext_bind]
  cases w.graph.context? p with
  | none => exact SameNumbers.givesNoNumber (.refl w)
  | some parent => exact givesNoNumber_newContext htidy (fun n hn => by cases hn) (.refl _)

end Workspace

open Workspace View in
/-- **Every change but one that asks for a number forgets numbers at most.** -/
theorem Change.givesNoNumber {w : Workspace} (htidy : w.graph.contexts.Tidy) (e : Change)
    (he : e.footprint ≠ .numbers) : w.GivesNoNumber (e.apply w) := by
  cases h : e.footprint with
  | owners => exact SameNumbers.givesNoNumber (e.same_of_owners h overlooksOwners_numbers w)
  | imports => exact SameNumbers.givesNoNumber (e.same_of_imports h overlooksImports_numbers w)
  | file =>
    exact SameNumbers.givesNoNumber (e.same_of_file h (fun data f => data.numbers_file) w)
  | numbers => exact absurd h he
  | contents => exact SameNumbers.givesNoNumber (e.same_of_contents h overlooksContents_numbers w)
  | tree =>
    exact SameNumbers.givesNoNumber
      (e.same_of_tree h overlooksContents_numbers overlooksTree_numbers w)
  | making =>
    cases e with
    | createTop file range =>
      refine givesNoNumber_newContext htidy (fun n hn => ?_) (.refl _)
      exact (Option.some.inj hn).symm
    | createContext p range => exact givesNoNumber_createContext htidy p range
    | createAnonymous p range => exact givesNoNumber_createAnonymous htidy p range
    | _ => cases h
  | teardown =>
    cases e with
    | deleteDeclaration d => exact (Edit.onlyForgets_deleteDeclaration d w).givesNoNumber
    | deleteContext c => exact (Edit.onlyForgets_deleteContext c w).givesNoNumber
    | clean c keep => exact (Edit.onlyForgets_clean c keep w).givesNoNumber
    | _ => cases h

/-! ## 6. Asking for numbers -/

namespace Workspace

open ScopeGraph.Graph DeclNumbers

variable {w w' : Workspace} {t : TopId} {d : DeclId}

/-- **What asking for a number can come to.** A declaration that has a number keeps it,
    and any other gets the next one. -/
inductive Numbering (w : Workspace) (t : TopId) (d : DeclId) :
    EStateM.Result EditError Workspace Nat → Prop where
  | refused {x : EditError} (h : w.graph.hasDeclaration d = false ∨ w.graph.numbers? t = none) :
      Numbering w t d (.error x w)
  | known {n : DeclNumbers} {i : UInt32} (hd : w.graph.hasDeclaration d = true)
      (hn : w.graph.numbers? t = some n) (hi : n.find? d = some i) :
      Numbering w t d (.ok i.toNat w)
  | next {n : DeclNumbers} {w' : Workspace} (hd : w.graph.hasDeclaration d = true)
      (hn : w.graph.numbers? t = some n) (hnew : n.find? d = none)
      (hnumbers : ∀ t', w'.graph.numbers? t' =
        if t' = t then some (n.assign d) else w.graph.numbers? t') :
      Numbering w t d (.ok n.next.toNat w')

/-- One number more in a file. -/
theorem numbers?_assign {n : DeclNumbers} (hn : w.graph.numbers? t = some n) (t' : TopId) :
    (w.graph.modifyContext t.context fun data => { data with
      file := data.file.map fun r => { r with numbers := r.numbers.assign d } }).numbers? t' =
      if t' = t then some (n.assign d) else w.graph.numbers? t' := by
  unfold numbers? at hn ⊢
  rw [context?_modifyContext]
  by_cases ht : t' = t
  · subst ht
    rw [if_pos rfl, if_pos rfl]
    obtain ⟨data, hdata, hnumbers⟩ := Option.map_eq_some_iff.mp (Option.join_eq_some_iff.mp hn)
    obtain ⟨r, hr, rfl⟩ := Option.map_eq_some_iff.mp hnumbers
    simp [hdata, Context.numbers, hr]
  · have hne : t'.context ≠ t.context := fun e => ht (by cases t'; cases t; exact congrArg _ e)
    rw [if_neg hne, if_neg ht]

theorem numbering (w : Workspace) (t : TopId) (d : DeclId) :
    Numbering w t d (Edit.declarationIndex t d w) := by
  unfold Edit.declarationIndex
  rw [Edit.needDeclaration_bind]
  cases hd : w.graph.declaration? d with
  | none => exact .refused (.inl (congrArg Option.isSome hd))
  | some data =>
    have hlive : w.graph.hasDeclaration d = true := congrArg Option.isSome hd
    dsimp only
    rw [Edit.needFile_bind]
    cases hc : w.graph.context? t.context with
    | none =>
      refine .refused (.inr ?_)
      unfold numbers?
      rw [hc]
      rfl
    | some top =>
      have hnumbers : w.graph.numbers? t = top.numbers := by
        unfold numbers?
        rw [hc]
        rfl
      dsimp only
      cases hr : top.file with
      | none => exact .refused (.inr (hnumbers.trans (congrArg _ hr)))
      | some r =>
        have hn : w.graph.numbers? t = some r.numbers := hnumbers.trans (congrArg _ hr)
        dsimp only
        cases hi : r.numbers.find? d with
        | some i => exact .known hlive hn hi
        | none => exact .next hlive hn hi (numbers?_assign hn)

/-- A call gives a number. -/
def Gives (w : Workspace) (call : Call) (t : TopId) (d : DeclId) (i : Nat) : Prop :=
  call = .change (.declarationIndex t d) ∧ ∃ w', Edit.declarationIndex t d w = .ok i w'

/-- **A number was given in the course of some calls.** -/
def Numbered (w : Workspace) (calls : List Call) (t : TopId) (d : DeclId) (i : Nat) : Prop :=
  ∃ before call after, calls = before ++ call :: after ∧ (w.run before).Gives call t d i

theorem numbered_cons {call : Call} {rest : List Call} {i : Nat} :
    w.Numbered (call :: rest) t d i ↔ w.Gives call t d i ∨ (call.apply w).Numbered rest t d i := by
  constructor
  · intro h
    obtain ⟨before, call', after, hcalls, hgives⟩ := h
    cases before with
    | nil =>
      cases hcalls
      exact .inl hgives
    | cons first before =>
      cases hcalls
      exact .inr ⟨before, call', after, rfl, hgives⟩
  · intro h
    rcases h with hgives | ⟨before, call', after, rfl, hgives⟩
    · exact ⟨[], call, rest, rfl, hgives⟩
    · exact ⟨call :: before, call', after, rfl, hgives⟩

theorem Numbered.append {before : List Call} {i : Nat} (h : w.Numbered before t d i)
    (after : List Call) : w.Numbered (before ++ after) t d i := by
  obtain ⟨first, call, rest, rfl, hgives⟩ := h
  exact ⟨first, call, rest ++ after, by simp, hgives⟩

/-! ## 7. Numbers and files agree -/

/-- **The numbers given so far agree with all files**, as far as the numbers of a file
    fit into a word. -/
structure Recorded (w : Workspace) (N : TopId → DeclId → Nat → Prop) : Prop where
  issued : ∀ t d i, N t d i → w.graph.Issued (.context t.context) ∧ w.graph.Issued (.declaration d)
  tallies : ∀ t n, w.graph.numbers? t = some n → n.places.length ≤ UInt32.size →
    Tallies w.graph n (N t)

theorem issued_of_numbers? {n : DeclNumbers} (hn : w.graph.numbers? t = some n) :
    w.graph.Issued (.context t.context) := by
  obtain ⟨data, hdata, _⟩ := Option.map_eq_some_iff.mp (Option.join_eq_some_iff.mp hn)
  exact issued_of_hasNode (n := .context t.context) (congrArg Option.isSome hdata)

namespace Recorded

variable {N : TopId → DeclId → Nat → Prop}

theorem congr {N' : TopId → DeclId → Nat → Prop} (h : Recorded w N)
    (hN : ∀ t d i, N' t d i ↔ N t d i) : Recorded w N' := by
  have heq : N' = N := funext fun t => funext fun d => funext fun i => propext (hN t d i)
  exact heq ▸ h

/-- A call that gives no number. A declaration that has gone has gone for good. -/
theorem givesNoNumber (h : Recorded w N) (hnumbers : GivesNoNumber w w')
    (hadvances : Advances w w') : Recorded w' N where
  issued t d i hN := (h.issued t d i hN).imp (hadvances.issued _) (hadvances.issued _)
  tallies t n' hn' hfew := by
    rcases hnumbers t n' hn' with ⟨n, hn, hforgets⟩ | ⟨hnew, rfl⟩
    · have hold := h.tallies t n hn (hforgets.length ▸ hfew)
      refine (hold.of_gone fun d k hN hgone => ?_).forgetsGone hforgets
      exact hadvances.stays_gone (.declaration d) (h.issued t d k hN).2 hgone
    -- a new file has no numbers, since numbers are of files that were there
    · exact .new fun d k hN => hnew (h.issued t d k hN).1

/-- A number given once more. -/
theorem known (h : Recorded w N) {n : DeclNumbers} {i : UInt32}
    (hd : w.graph.hasDeclaration d = true) (hn : w.graph.numbers? t = some n)
    (hi : n.find? d = some i) :
    Recorded w fun t' d' k => N t' d' k ∨ t' = t ∧ d' = d ∧ k = i.toNat where
  issued := by
    intro t' d' k hk
    rcases hk with hN | ⟨rfl, rfl, rfl⟩
    · exact h.issued t' d' k hN
    · exact ⟨issued_of_numbers? hn, issued_of_hasNode hd⟩
  tallies t' n' hn' hfew := by
    refine (h.tallies t' n' hn' hfew).congr fun d' k => or_iff_left_of_imp fun hk => ?_
    obtain ⟨rfl, rfl, rfl⟩ := hk
    rw [hn] at hn'
    cases hn'
    exact (h.tallies t' n hn hfew).of_find? hi

/-- A new number. -/
theorem next (h : Recorded w N) (hadvances : Advances w w')
    (hlive : ∀ e, w'.graph.hasDeclaration e = w.graph.hasDeclaration e)
    {n : DeclNumbers} (hd : w.graph.hasDeclaration d = true)
    (hn : w.graph.numbers? t = some n) (hnew : n.find? d = none)
    (hnumbers : ∀ t', w'.graph.numbers? t' =
      if t' = t then some (n.assign d) else w.graph.numbers? t') :
    Recorded w' fun t' d' k => N t' d' k ∨ t' = t ∧ d' = d ∧ k = n.next.toNat where
  issued := by
    intro t' d' k hk
    rcases hk with hN | ⟨rfl, rfl, rfl⟩
    · exact (h.issued t' d' k hN).imp (hadvances.issued _) (hadvances.issued _)
    · exact ⟨hadvances.issued _ (issued_of_numbers? hn), hadvances.issued _ (issued_of_hasNode hd)⟩
  tallies t' n' hn' hfew := by
    have hgone : ∀ e, w.graph.hasDeclaration e = false → w'.graph.hasDeclaration e = false :=
      fun e he => (hlive e).trans he
    rw [hnumbers] at hn'
    split at hn'
    · next ht =>
      cases hn'
      have hlt : n.places.length < UInt32.size := by
        rw [assign, List.length_append] at hfew
        exact hfew
      have hold := h.tallies t n hn hlt.le
      refine ((hold.assign hlt hd hnew).of_gone fun e _ _ => hgone e).congr fun d' k => ?_
      rw [ht, and_iff_right rfl]
    · next ht =>
      refine ((h.tallies t' n' hn' hfew).of_gone fun e _ _ => hgone e).congr fun d' k => ?_
      exact or_iff_left fun hN => ht hN.1

/-- A call that asks for a number. -/
theorem declarationIndex (h : Recorded w N) (t : TopId) (d : DeclId)
    (hadvances : Advances w ((Edit.declarationIndex t d).after w)) :
    Recorded ((Edit.declarationIndex t d).after w) fun t' d' i => N t' d' i ∨
      t' = t ∧ d' = d ∧ ∃ w', Edit.declarationIndex t d w = .ok i w' := by
  have hbeside := Edit.beside_declarationIndex t d w
  have hnumbering := numbering w t d
  have hok : ∀ {i j : Nat} {w₁ : Workspace}, (∃ w', EStateM.Result.ok (ε := EditError) i w₁ =
      EStateM.Result.ok j w') ↔ j = i := by
    intro i j w₁
    constructor
    · intro h
      obtain ⟨_, he⟩ := h
      cases he
      rfl
    · intro he
      exact ⟨w₁, by rw [he]⟩
  unfold Edit.after at hadvances hbeside ⊢
  generalize Edit.declarationIndex t d w = result at hnumbering hadvances hbeside ⊢
  cases hnumbering with
  | refused =>
    refine h.congr fun t' d' i => or_iff_left fun hN => ?_
    obtain ⟨_, _, _, he⟩ := hN
    cases he
  | known hd hn hi =>
    simp only [hok]
    exact h.known hd hn hi
  | next hd hn hnew hnumbers =>
    simp only [hok]
    exact h.next hadvances hbeside.graph.sameRegistry.nodes.declarations.isSome_get? hd hn hnew
      hnumbers

end Recorded

variable {call : Call} {calls rest : List Call}

/-- A call that asks for no number gives none. -/
theorem Ready.givesNoNumber (hready : w.Ready (call :: rest))
    (hcall : ∀ t d, call ≠ .change (.declarationIndex t d)) : w.GivesNoNumber (call.apply w) := by
  cases call with
  | change e =>
    refine e.givesNoNumber hready.faithful.linked.tidy fun he => ?_
    cases e with
    | declarationIndex t d => exact hcall t d rfl
    | _ => cases he
  | question q =>
    exact SameNumbers.givesNoNumber (View.Same.mk (congrArg _ (q.graph_apply w)) rfl)

namespace Recorded

variable {N : TopId → DeclId → Nat → Prop}

/-- **One call.** -/
theorem step (h : Recorded w N) (hready : w.Ready (call :: rest)) :
    Recorded (call.apply w) fun t d i => N t d i ∨ w.Gives call t d i := by
  have hadvances := hready.step.2
  by_cases hasks : ∃ t d, call = .change (.declarationIndex t d)
  · obtain ⟨t, d, rfl⟩ := hasks
    refine (h.declarationIndex t d hadvances).congr fun t' d' i => or_congr_right ?_
    constructor
    · intro hgives
      obtain ⟨he, hok⟩ := hgives
      cases he
      exact ⟨rfl, rfl, hok⟩
    · intro hgives
      obtain ⟨rfl, rfl, hok⟩ := hgives
      exact ⟨rfl, hok⟩
  · have hnumbers := hready.givesNoNumber fun t d he => hasks ⟨t, d, he⟩
    refine (h.givesNoNumber hnumbers hadvances).congr fun t d i => or_iff_left fun hgives => ?_
    exact hasks ⟨t, d, hgives.1⟩

/-- **Every sequence of calls.** -/
theorem run (h : Recorded w N) (hready : w.Ready (calls ++ rest)) :
    Recorded (w.run calls) fun t d i => N t d i ∨ w.Numbered calls t d i := by
  induction calls generalizing w N with
  | nil =>
    refine h.congr fun t d i => or_iff_left fun hN => ?_
    obtain ⟨before, call, after, he, _⟩ := hN
    exact List.append_ne_nil_of_right_ne_nil before (List.cons_ne_nil call after) he.symm
  | cons call calls ih =>
    refine (ih (h.step hready) hready.step.1).congr fun t d i => ?_
    rw [numbered_cons, or_assoc]

end Recorded

theorem recorded_run {limits : Limits} (hready : (empty limits).Ready (calls ++ rest)) :
    Recorded ((empty limits).run calls) ((empty limits).Numbered calls) := by
  have hempty : Recorded (empty limits) fun _ _ _ => False := by
    refine ⟨fun _ _ _ => False.elim, fun t n hn => ?_⟩
    have hnone : (empty limits).graph.numbers? t = none := rfl
    rw [hnone] at hn
    cases hn
  exact (hempty.run hready).congr fun t d i => (iff_of_eq (false_or _)).symm

/-- A file that is there after a call, and that is not new, has as many places as
    before, or one more. -/
theorem Ready.length_step {n : DeclNumbers} (hready : w.Ready (call :: rest))
    (hissued : w.graph.Issued (.context t.context))
    (hn : (call.apply w).graph.numbers? t = some n) :
    ∃ m, w.graph.numbers? t = some m ∧ m.places.length ≤ n.places.length := by
  by_cases hasks : ∃ t d, call = .change (.declarationIndex t d)
  · obtain ⟨t', d, rfl⟩ := hasks
    have hnumbering := numbering w t' d
    change ((Edit.declarationIndex t' d).after w).graph.numbers? t = some n at hn
    unfold Edit.after at hn
    generalize Edit.declarationIndex t' d w = result at hnumbering hn
    cases hnumbering with
    | refused | known => exact ⟨n, hn, Nat.le_refl _⟩
    | @next m w' hd hm hnew hnumbers =>
      dsimp only at hn
      rw [hnumbers] at hn
      split at hn
      · next ht =>
        cases hn
        refine ⟨m, ht ▸ hm, ?_⟩
        rw [assign, List.length_append]
        exact Nat.le_add_right ..
      · exact ⟨n, hn, Nat.le_refl _⟩
  · rcases hready.givesNoNumber (fun t d he => hasks ⟨t, d, he⟩) t n hn with
      ⟨m, hm, hforgets⟩ | ⟨hnew, _⟩
    · exact ⟨m, hm, hforgets.length.ge⟩
    · exact absurd hissued hnew

/-- **No file loses a place** as long as it is there. -/
theorem Ready.length_run {n : DeclNumbers} (hready : w.Ready calls)
    (hissued : w.graph.Issued (.context t.context)) (hn : (w.run calls).graph.numbers? t = some n) :
    ∃ m, w.graph.numbers? t = some m ∧ m.places.length ≤ n.places.length := by
  induction calls generalizing w with
  | nil => exact ⟨n, hn, Nat.le_refl _⟩
  | cons call calls ih =>
    obtain ⟨hready', hadvances⟩ := hready.step
    obtain ⟨m₁, hm₁, hle₁⟩ := ih hready' (hadvances.issued _ hissued) hn
    obtain ⟨m, hm, hle⟩ := hready.length_step hissued hm₁
    exact ⟨m, hm, hle.trans hle₁⟩

/-! ## 8. What numbers mean -/

theorem usedDeclaration?_eq_some_iff {i : Nat} : w.graph.usedDeclaration? t i = some d ↔
    ∃ n, w.graph.numbers? t = some n ∧ n.places[i]? = some (some d) ∧
      w.graph.hasDeclaration d = true := by
  rw [numbers?_eq_fileRecord?]
  unfold usedDeclaration?
  cases w.graph.fileRecord? t with
  | none => simp
  | some r => simp [Option.filter_eq_some_iff, Option.join_eq_some_iff]

section Few

variable {N : TopId → DeclId → Nat → Prop} {n : DeclNumbers} (h : Recorded w N)
  (hn : w.graph.numbers? t = some n) (hfew : n.places.length ≤ UInt32.size)

include h hn hfew

/-- **What a number names, it names for good**: a declaration that is there and got the
    number. -/
theorem Recorded.usedDeclaration?_iff {i : Nat} :
    w.graph.usedDeclaration? t i = some d ↔ w.graph.hasDeclaration d = true ∧ N t d i := by
  have htallies := h.tallies t n hn hfew
  rw [usedDeclaration?_eq_some_iff]
  constructor
  · intro hused
    obtain ⟨m, hm, hi, hd⟩ := hused
    rw [hn] at hm
    cases hm
    exact ⟨hd, htallies.named i d hi⟩
  · intro hgiven
    obtain ⟨hd, hN⟩ := hgiven
    rcases htallies.placed d i hN with hi | ⟨_, hgone⟩
    · exact ⟨n, hn, hi, hd⟩
    · rw [hd] at hgone
      cases hgone

/-- A declaration that is there gets a number, and it is the one that it had. -/
theorem Recorded.exists_number (hd : w.graph.hasDeclaration d = true) :
    ∃ i w', Edit.declarationIndex t d w = .ok i w' ∧ ∀ j, N t d j → j = i := by
  have htallies := h.tallies t n hn hfew
  have hnumbering := numbering w t d
  generalize Edit.declarationIndex t d w = result at hnumbering ⊢
  cases hnumbering with
  | refused hno =>
    rcases hno with hgone | hnone
    · rw [hd] at hgone
      cases hgone
    · rw [hn] at hnone
      cases hnone
  | @known m i _ hm hi =>
    rw [hn] at hm
    cases hm
    exact ⟨_, w, rfl, fun j hj => htallies.number d j _ hj (htallies.of_find? hi)⟩
  | @next m w' _ hm hnew _ =>
    rw [hn] at hm
    cases hm
    exact ⟨_, w', rfl, fun j hj => absurd hj (htallies.unnumbered hd hnew j)⟩

end Few

/-- **Numbers are stable and are not given again.** Take a file that is there after a
    sequence of calls, whatever it was, with no more places than there are words of 32
    bits. Its map from declarations to numbers and its list of places are inverse to
    each other. Every declaration that is there gets a number, also one of another file,
    and it is the one that it got before. A declaration never got two numbers, and no
    two declarations ever got the same one, those that have gone included. A number
    names a declaration exactly if the declaration is there and got the number; so what
    a number named once it names or names nothing, in all states after that. -/
theorem numbers_stable (limits : Limits) (calls : List Call)
    (hcontexts : (empty limits).FewFrees calls)
    (hdeclarations : (empty limits).FewDeclarationFrees calls) (t : TopId) (r : FileRecord)
    (hr : ((empty limits).run calls).graph.fileRecord? t = some r)
    (hfew : r.numbers.places.length ≤ UInt32.size) :
    let w := (empty limits).run calls
    let given := (empty limits).Numbered calls t
    r.numbers.Inverse ∧
    (∀ d, w.graph.hasDeclaration d = true →
      ∃ i w', Edit.declarationIndex t d w = .ok i w' ∧ ∀ j, given d j → j = i) ∧
    (∀ d i j, given d i → given d j → i = j) ∧
    (∀ d d' i, given d i → given d' i → d = d') ∧
    (∀ i d, w.graph.usedDeclaration? t i = some d ↔ w.graph.hasDeclaration d = true ∧ given d i) ∧
    ∀ before after, calls = before ++ after → ∀ i d d',
      ((empty limits).run before).graph.usedDeclaration? t i = some d →
        w.graph.usedDeclaration? t i = some d' → d' = d := by
  intro w given
  have hready := ready_empty hcontexts hdeclarations
  have hn : w.graph.numbers? t = some r.numbers := by
    rw [numbers?_eq_fileRecord?, hr]
    rfl
  have hall : (empty limits).Ready (calls ++ []) := (List.append_nil calls).symm ▸ hready
  have hrecorded : Recorded w ((empty limits).Numbered calls) := recorded_run hall
  have htallies := hrecorded.tallies t _ hn hfew
  refine ⟨htallies.inverse, fun d hd => hrecorded.exists_number hn hfew hd, htallies.number,
    htallies.owner, fun i d => hrecorded.usedDeclaration?_iff hn hfew, ?_⟩
  intro before after hcalls i d d' hd hd'
  -- the file was there at the earlier point, with no more places than at the end
  obtain ⟨m, hm, _, _⟩ := usedDeclaration?_eq_some_iff.mp hd
  rw [hcalls] at hready
  have hlength : m.places.length ≤ r.numbers.places.length := by
    have hend : (((empty limits).run before).run after).graph.numbers? t = some r.numbers := by
      rw [← run_append, ← hcalls]
      exact hn
    obtain ⟨m', hm', hle⟩ := hready.run.length_run (issued_of_numbers? hm) hend
    rw [hm] at hm'
    cases hm'
    exact hle
  have hbefore := ((recorded_run hready).usedDeclaration?_iff hm (hlength.trans hfew)).mp hd
  have hgiven : given d i := by
    show (empty limits).Numbered calls t d i
    rw [hcalls]
    exact hbefore.2.append after
  exact htallies.owner d' d i ((hrecorded.usedDeclaration?_iff hn hfew).mp hd').2 hgiven

/-- Two files with a declaration each, and both get a number in the first. The one of
    the second file goes, another one takes its slot and gets a number too. -/
def borrowedNumbers : List Call :=
  [.change (.createTop ⟨0⟩ {}), .change (.createTop ⟨1⟩ {}),
    .change (.declare ⟨0, 0⟩ "a" {} .ordinary), .change (.declare ⟨1, 0⟩ "b" {} .ordinary),
    .change (.declarationIndex ⟨⟨0, 0⟩⟩ ⟨1, 0⟩), .change (.declarationIndex ⟨⟨0, 0⟩⟩ ⟨0, 0⟩),
    .change (.deleteDeclaration ⟨1, 0⟩), .change (.declare ⟨1, 0⟩ "c" {} .ordinary),
    .change (.declarationIndex ⟨⟨0, 0⟩⟩ ⟨1, 1⟩)]

/-- The first number names nothing any more, although it is not forgotten and the slot
    is in use again. -/
theorem numbers_stable_borrowed :
    let t : TopId := ⟨⟨0, 0⟩⟩
    let w := (empty {}).run borrowedNumbers
    let numbers : DeclNumbers :=
      { indices := [(⟨1, 1⟩, 2), (⟨0, 0⟩, 1), (⟨1, 0⟩, 0)]
        places := [some ⟨1, 0⟩, some ⟨0, 0⟩, some ⟨1, 1⟩] }
    w.graph.numbers? t = some numbers ∧ numbers.Inverse ∧
    w.graph.usedDeclaration? t 0 = none ∧
    (∃ w', Edit.declarationIndex t ⟨0, 0⟩ w = .ok 1 w') ∧
    (empty {}).Numbered borrowedNumbers t ⟨1, 1⟩ 2 ∧
    ∀ d, (empty {}).Numbered borrowedNumbers t d 2 → d = ⟨1, 1⟩ := by
  intro t w numbers
  have hr : w.graph.fileRecord? t = some { FileRecord.new ⟨0⟩ with numbers := numbers } := by
    decide +kernel
  obtain ⟨hinverse, hnumber, _, howner, hnames, _⟩ := numbers_stable {} borrowedNumbers
    (fewFrees_of_length (by decide)) (fewDeclarationFrees_of_length (by decide)) t _ hr (by decide)
  have hthird := ((hnames 2 ⟨1, 1⟩).mp (by decide +kernel)).2
  refine ⟨by decide +kernel, hinverse, by decide +kernel, ?_, hthird,
    fun d hd => howner d _ 2 hd hthird⟩
  obtain ⟨i, w', hok, hsame⟩ := hnumber ⟨0, 0⟩ (by decide +kernel)
  have hsecond := ((hnames 1 ⟨0, 0⟩).mp (by decide +kernel)).2
  rw [hsame 1 hsecond]
  exact ⟨w', hok⟩

end Workspace

end ScopeGraph
