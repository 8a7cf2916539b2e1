/-
  File:      ScopeGraph/Proofs/AliasChains.lean
  Subject:   Where a chain of aliases ends, and when it does.

  An alias names another declaration, which may be an alias again, may be gone, or may be
  the alias itself. Nothing keeps the links from running in a circle. The chain is
  followed for a number of links, and it is shown that this number only tells apart the
  chains that are short enough from all others: what is found is the end of the chain.

  * `Graph.AliasChain`: so many links lead from a declaration to another one;
  * `Graph.followAlias_eq_ok_iff`: a chain is followed to its end, if it has one that is
    near enough;
  * `Graph.followAlias_of_long`: a chain that has more links is given up, wherever it
    leads;
  * `Graph.resolveAlias_exact`: what an alias stands for.
-/
import ScopeGraph.Proofs.Calls

namespace ScopeGraph

/-! ## 1. Links and chains -/

/-- The declaration that an alias names. -/
def DeclKind.aliasTarget : DeclKind → Option DeclId
  | .alias target => target
  | _ => none

theorem DeclKind.aliasTarget_of_plain (kind : DeclKind) (h : kind.isAlias = false) :
    kind.aliasTarget = none := by
  rcases kind with _ | _ | _ | _
  · rfl
  · rfl
  · cases h
  · rfl

namespace Graph

/-- The declaration that a live alias names. -/
def aliasTarget? (g : Graph) (d : DeclId) : Option DeclId :=
  (g.declaration? d).bind (·.kind.aliasTarget)

/-- **So many links lead from a declaration to another one**, each from an alias that is
    there to the declaration that it names. -/
inductive AliasChain (g : Graph) : Nat → DeclId → DeclId → Prop where
  | here (d : DeclId) : AliasChain g 0 d d
  | link {n : Nat} {d e t : DeclId} :
      g.aliasTarget? d = some e → AliasChain g n e t → AliasChain g (n + 1) d t

/-- A declaration that is there and is no alias. -/
def EndsAliases (g : Graph) (d : DeclId) : Prop :=
  ∃ data, g.declaration? d = some data ∧ data.kind.isAlias = false

variable {g : Graph} {d e t : DeclId} {n m : Nat}

theorem aliasTarget?_eq_some : g.aliasTarget? d = some e ↔
    ∃ data, g.declaration? d = some data ∧ data.kind = .alias (some e) := by
  unfold aliasTarget?
  rw [Option.bind_eq_some_iff]
  refine exists_congr fun data => and_congr_right fun _ => ?_
  cases data.kind <;> simp [DeclKind.aliasTarget]

/-- What is no alias names nothing. -/
theorem EndsAliases.aliasTarget? (h : g.EndsAliases d) : g.aliasTarget? d = none := by
  obtain ⟨data, hdata, halias⟩ := h
  unfold Graph.aliasTarget?
  rw [hdata, Option.bind_some]
  exact data.kind.aliasTarget_of_plain halias

namespace AliasChain

/-- A chain and a chain from its end make one. -/
theorem append {x : DeclId} (h : g.AliasChain n d x) (h' : g.AliasChain m x t) :
    g.AliasChain (n + m) d t := by
  induction h with
  | here => rwa [Nat.zero_add]
  | @link n d e x hlink _ ih =>
    rw [Nat.add_right_comm]
    exact .link hlink (ih h')

/-- The first links of a chain. -/
theorem first (h : g.AliasChain n d t) (hm : m ≤ n) : ∃ x, g.AliasChain m d x := by
  induction h generalizing m with
  | here =>
    cases Nat.le_zero.mp hm
    exact ⟨_, .here _⟩
  | link hlink _ ih =>
    cases m with
    | zero => exact ⟨_, .here _⟩
    | succ m =>
      obtain ⟨x, hx⟩ := ih (Nat.le_of_succ_le_succ hm)
      exact ⟨x, .link hlink hx⟩

/-- Going round a circle again and again. -/
theorem around (h : g.AliasChain n d d) (times : Nat) : g.AliasChain (times * n) d d := by
  induction times with
  | zero =>
    rw [Nat.zero_mul]
    exact .here d
  | succ times ih =>
    rw [Nat.succ_mul]
    exact ih.append h

/-- A chain that comes to a circle is as long as one likes. -/
theorem long {x : DeclId} (h : g.AliasChain n d x) (hcircle : g.AliasChain (m + 1) x x)
    (links : Nat) : ∃ y, g.AliasChain links d y := by
  refine (h.append (hcircle.around links)).first ?_
  have hround : links * 1 ≤ links * (m + 1) := Nat.mul_le_mul_left links (Nat.le_add_left 1 m)
  omega

end AliasChain

/-! ## 2. Following a chain -/

/-- **One link of a chain of aliases**: the chain ends where it is, at a declaration that is
    no alias, or it goes on from what an alias names. -/
theorem followAlias_cases (h : g.followAlias n d = .ok e) :
    (e = d ∧ ∃ data, g.declaration? d = some data ∧ data.kind.isAlias = false) ∨
      ∃ m target data, n = m + 1 ∧ g.declaration? d = some data ∧
        data.kind = .alias (some target) ∧ g.followAlias m target = .ok e := by
  unfold followAlias at h
  cases hd : g.declaration? d with
  | none =>
    rw [hd] at h
    cases h
  | some data =>
    rw [hd] at h
    dsimp only at h
    rcases hk : data.kind with _ | _ | target | _
    · rw [hk] at h
      cases h
      exact .inl ⟨rfl, data, rfl, by rw [hk]; rfl⟩
    · rw [hk] at h
      cases h
      exact .inl ⟨rfl, data, rfl, by rw [hk]; rfl⟩
    · rw [hk] at h
      cases target with
      | none => cases h
      | some target =>
        cases n with
        | zero => cases h
        | succ m => exact .inr ⟨m, target, data, rfl, rfl, hk, h⟩
    · rw [hk] at h
      cases h
      exact .inl ⟨rfl, data, rfl, by rw [hk]; rfl⟩

theorem followAlias_of_ends (h : g.EndsAliases d) (n : Nat) : g.followAlias n d = .ok d := by
  obtain ⟨data, hdata, halias⟩ := h
  unfold followAlias
  rw [hdata]
  rcases hkind : data.kind with _ | _ | _ | _
  · simp only [hkind]
  · simp only [hkind]
  · rw [hkind] at halias
    cases halias
  · simp only [hkind]

theorem followAlias_succ (h : g.aliasTarget? d = some e) (n : Nat) :
    g.followAlias (n + 1) d = g.followAlias n e := by
  obtain ⟨data, hdata, hkind⟩ := aliasTarget?_eq_some.mp h
  rw [followAlias, hdata]
  simp only [hkind]

theorem followAlias_zero (h : g.aliasTarget? d = some e) :
    g.followAlias 0 d = .error .aliasChainTooLong := by
  obtain ⟨data, hdata, hkind⟩ := aliasTarget?_eq_some.mp h
  rw [followAlias, hdata]
  simp only [hkind]

/-- A chain that is followed to its end has an end, and few links. -/
theorem chain_of_followAlias (h : g.followAlias n d = .ok t) :
    g.EndsAliases t ∧ ∃ m ≤ n, g.AliasChain m d t := by
  induction n generalizing d with
  | zero =>
    rcases followAlias_cases h with ⟨rfl, hend⟩ | ⟨_, _, _, hn, _⟩
    · exact ⟨hend, 0, Nat.le_refl 0, .here _⟩
    · cases hn
  | succ n ih =>
    rcases followAlias_cases h with ⟨rfl, hend⟩ | ⟨_, target, data, hn, hdata, hkind, hrest⟩
    · exact ⟨hend, 0, Nat.zero_le _, .here _⟩
    · cases hn
      obtain ⟨hend, m, hm, hchain⟩ := ih hrest
      have hlink := aliasTarget?_eq_some.mpr ⟨data, hdata, hkind⟩
      exact ⟨hend, m + 1, Nat.succ_le_succ hm, .link hlink hchain⟩

/-- **A chain is followed to its end, if it has an end that is near enough.** -/
theorem followAlias_eq_ok_iff : g.followAlias n d = .ok t ↔
    g.EndsAliases t ∧ ∃ m ≤ n, g.AliasChain m d t := by
  refine ⟨chain_of_followAlias, ?_⟩
  rintro ⟨hend, m, hm, hchain⟩
  induction hchain generalizing n with
  | here => exact followAlias_of_ends hend n
  | @link m d e t hlink _ ih =>
    obtain ⟨n, rfl⟩ := Nat.exists_eq_add_of_le' hm
    rw [← Nat.add_assoc, followAlias_succ hlink]
    exact ih hend (Nat.le_add_left m n)

/-- **A chain of more links is given up**, wherever it leads. -/
theorem followAlias_of_long (h : g.AliasChain (n + 1) d t) :
    g.followAlias n d = .error .aliasChainTooLong := by
  induction n generalizing d with
  | zero =>
    cases h with
    | link hlink _ => exact followAlias_zero hlink
  | succ n ih =>
    cases h with
    | link hlink hrest =>
      rw [followAlias_succ hlink]
      exact ih hrest

/-! ## 3. What an alias stands for -/

/-- **What an alias stands for.** It is the declaration at the end of the chain, one that is
    there and is no alias, if the limit on links admits the chain. A chain that comes to a
    circle has none, whatever the limit. What is found stands for itself, and what an alias
    names stands for what the alias does. -/
theorem resolveAlias_exact (g : Graph) (d : DeclId) :
    (∀ t, g.resolveAlias d = .ok t ↔
      (∃ data, g.declaration? t = some data ∧ data.kind.isAlias = false) ∧
        ∃ n ≤ g.limits.aliasDepth, g.AliasChain n d t) ∧
    (∀ n m x, g.AliasChain n d x → g.AliasChain (m + 1) x x →
      g.resolveAlias d = .error .aliasChainTooLong) ∧
    (∀ t, g.resolveAlias d = .ok t → g.resolveAlias t = .ok t) ∧
    ∀ data b t, g.declaration? d = some data → data.kind = .alias (some b) →
      g.resolveAlias d = .ok t → g.resolveAlias b = .ok t := by
  refine ⟨fun t => followAlias_eq_ok_iff, fun n m x hchain hcircle => ?_, fun t ht => ?_,
    fun data b t hd hb ht => ?_⟩
  · obtain ⟨y, hy⟩ := hchain.long hcircle (g.limits.aliasDepth + 1)
    exact followAlias_of_long hy
  · exact followAlias_of_ends (chain_of_followAlias ht).1 _
  · have hlink := aliasTarget?_eq_some.mpr ⟨data, hd, hb⟩
    obtain ⟨hend, n, hn, hchain⟩ := chain_of_followAlias ht
    cases hchain with
    | here =>
      rw [hend.aliasTarget?] at hlink
      cases hlink
    | @link n _ e _ hfirst hrest =>
      cases hlink.symm.trans hfirst
      exact followAlias_eq_ok_iff.mpr ⟨hend, n, Nat.le_of_succ_le hn, hrest⟩

end Graph

namespace Workspace

/-- A function, three aliases of which each names the one before it, and two aliases that
    name each other. -/
def aliasesInRow : List Call :=
  [.change (.createTop ⟨0⟩ {}), .change (.declare ⟨0, 0⟩ "f" {} .function),
    .change (.declare ⟨0, 0⟩ "a" {} (.alias (some ⟨0, 0⟩))),
    .change (.declare ⟨0, 0⟩ "b" {} (.alias (some ⟨1, 0⟩))),
    .change (.declare ⟨0, 0⟩ "c" {} (.alias (some ⟨2, 0⟩))),
    .change (.declare ⟨0, 0⟩ "x" {} (.alias (some ⟨5, 0⟩))),
    .change (.declare ⟨0, 0⟩ "y" {} (.alias (some ⟨4, 0⟩)))]

/-- With a limit of two links the second alias stands for the function, and so does what it
    names; the third one is a link too far, and the two others run in a circle. -/
theorem resolveAlias_exact_row :
    let g := ((empty { aliasDepth := 2 }).run aliasesInRow).graph
    g.resolveAlias ⟨2, 0⟩ = .ok ⟨0, 0⟩ ∧ g.resolveAlias ⟨1, 0⟩ = .ok ⟨0, 0⟩ ∧
      (¬ ∃ n ≤ 2, g.AliasChain n ⟨3, 0⟩ ⟨0, 0⟩) ∧
      g.resolveAlias ⟨4, 0⟩ = .error .aliasChainTooLong := by
  intro g
  have hends : g.resolveAlias ⟨2, 0⟩ = .ok ⟨0, 0⟩ := by decide +kernel
  have hcircle : g.AliasChain 2 ⟨4, 0⟩ ⟨4, 0⟩ :=
    .link (e := ⟨5, 0⟩) (by decide +kernel) (.link (by decide +kernel) (.here _))
  have hnames : g.aliasTarget? ⟨2, 0⟩ = some ⟨1, 0⟩ := by decide +kernel
  obtain ⟨data, hd, hb⟩ := Graph.aliasTarget?_eq_some.mp hnames
  refine ⟨hends, (Graph.resolveAlias_exact g ⟨2, 0⟩).2.2.2 data _ _ hd hb hends, fun hfar => ?_,
    (Graph.resolveAlias_exact g ⟨4, 0⟩).2.1 0 1 ⟨4, 0⟩ (.here _) hcircle⟩
  have hfunction := (((Graph.resolveAlias_exact g ⟨2, 0⟩).1 ⟨0, 0⟩).mp hends).1
  have hfound := ((Graph.resolveAlias_exact g ⟨3, 0⟩).1 ⟨0, 0⟩).mpr ⟨hfunction, hfar⟩
  exact absurd hfound (by decide +kernel)

end Workspace

end ScopeGraph
