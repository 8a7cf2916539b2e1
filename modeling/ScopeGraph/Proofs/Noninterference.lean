/-
  File:      ScopeGraph/Proofs/Noninterference.lean
  Subject:   A file that is not imported has no say in a search.

  Under the names that a file looks for, other files may have declarations,
  namespace imports and namespace aliases of all kinds. They come up as candidates
  at every prefix of every name that the expansion makes. Two searches are followed
  side by side, one with such a file in the table and one without it: at every step
  the two differ by candidates of this file, and none of them is seen.

  * `Graph.Conceals.alike_findDeclarations`, `Graph.Conceals.alike_findContexts`: the
    two searches, for all memos that make the walk from file to file tell the
    searching file the same;
  * `Workspace.unregister_unimported`: before and after the file is unregistered,
    also if the searching file asks other questions in between.
-/
import ScopeGraph.Proofs.Concealment
import ScopeGraph.Proofs.ExpansionRounds
import ScopeGraph.Proofs.RepeatedWalk

namespace ScopeGraph

open Query

namespace Graph

/-! ## 1. Tables that answer alike -/

namespace TablesAlike

variable {P : HopMemo → Prop} {R : (α : Type) → List α → List α → Prop}
  {S A : Option Position → Prop} {g g' : Graph} {a : TopId} (h : TablesAlike P R S A g g' a)
  {position : Option Position} (hposition : S position) (hlimits : g'.limits = g.limits)

include h hposition hlimits

/-- The longest path may be longer in one of the tables, but rounds past the longest path
    do nothing. -/
theorem expandNames (whole : Bool) (names : List Path) :
    Alike P (R Path) (g.expandNames a position whole names)
      (g'.expandNames a position whole names) := by
  unfold Graph.expandNames
  rw [hlimits, ← expandRounds_add g _ _ _ _ (Nat.le_refl _) g'.table.longestKey,
    ← expandRounds_add g' _ _ _ _ (Nat.le_refl _) g.table.longestKey,
    Nat.add_comm g'.table.longestKey]
  exact h.expandRounds hposition (h.expandUnder whole _) whole _ 0 (h.congruence.refl names)

/-- **A registered file finds the same declarations** in tables that answer it alike. -/
theorem findDeclarations (hanswers : A position) (ha : g.isRegistered a = true)
    (ha' : g'.isRegistered a = true) (name : QualName) (type : Option TypeId)
    (flags : SearchFlags) :
    Alike P (R DeclId) (g.findDeclarations a.context name position type flags)
      (g'.findDeclarations a.context name position type flags) := by
  unfold Graph.findDeclarations
  rw [search_registered _ _ ha, search_registered _ _ ha', map_eq_pure_bind, map_eq_pure_bind]
  have htable : Alike P (R DeclId)
      (g.declarationsInTable ⟨type, flags.onlyFunctions⟩ a [.ofName name] position)
      (g'.declarationsInTable ⟨type, flags.onlyFunctions⟩ a [.ofName name] position) :=
    (h.expandNames hposition hlimits _ _).bind fun _ _ hpaths =>
      h.congruence.gatherM (fun p _ => h.declarations _ hanswers _ p) hpaths
  exact htable.bind fun _ _ hds => alike_pure (h.congruence.eraseDups hds)

end TablesAlike

/-! ## 2. What a file is told -/

namespace SameSetting

variable {g g' : Graph} {a : TopId} {told : TopId → Bool} (h : SameSetting g g')
  (ha : g.IsTop a)

include h ha

theorem alike_fileSees (other : TopId) (start : Position) (anywhere : Bool)
    (position : Option Position) :
    Alike (g.Steadfast a told) Eq (g.fileSees a other start anywhere position)
      (g'.fileSees a other start anywhere position) := by
  unfold fileSees
  rw [h.importsTop]
  split
  · exact alike_of_yields (yields_steadfast ha told other) (yields_steadfast ha told other)
      fun _ _ hb hb' => hb.trans hb'.symm
  · exact alike_pure rfl

/-- A file is answered the same about a declaration that is the same and stands for
    the same. -/
theorem alike_checkDeclaration {d : DeclId}
    (hd : (g'.declaration? d).map Declaration.content = (g.declaration? d).map Declaration.content)
    (hresolve : g'.resolveAlias d = g.resolveAlias d)
    (hend : ∀ e, g.resolveAlias d = .ok e →
      (g'.declaration? e).map Declaration.content = (g.declaration? e).map Declaration.content)
    (position : Option Position) (filter : DeclFilter) :
    Alike (g.Steadfast a told) Eq (g.checkDeclaration a position filter d)
      (g'.checkDeclaration a position filter d) := by
  refine alike_lift_bind_both ?_
  rw [value_liveDeclaration, value_liveDeclaration]
  rcases declaration_cases_of_content hd with ⟨hd, hd'⟩ | ⟨data, key, hd, hd'⟩
  · rw [hd, hd']
    exact alike_pure rfl
  · rw [hd, hd']
    dsimp only
    rw [funext h.topOf?, funext h.isClass]
    cases data.context.bind g.topOf? with
    | none => exact alike_pure rfl
    | some other =>
      refine (h.alike_fileSees ha other _ _ _).bind fun b b' hb => ?_
      subst hb
      cases b with
      | false => exact alike_pure rfl
      | true =>
        refine alike_lift_bind_both ?_
        rw [hresolve]
        cases hres : g.resolveAlias d with
        | error x => exact alike_pure rfl
        | ok e =>
          dsimp only [Noted.ofExcept]
          rcases declaration_cases_of_content (hend e hres) with
            ⟨he, he'⟩ | ⟨found, _, he, he'⟩
          · rw [he, he']
            exact alike_pure rfl
          · rw [he, he']
            exact alike_pure rfl

end SameSetting

namespace Conceals

variable {g g' : Graph} {a u : TopId} {told : TopId → Bool} (h : Conceals u g g')
  (ha : g.IsTop a)

include h ha

/-- A file is answered the same about a declaration. -/
theorem alike_checkDeclaration (position : Option Position) (filter : DeclFilter) (d : DeclId) :
    Alike (g.Steadfast a told) Eq (g.checkDeclaration a position filter d)
      (g'.checkDeclaration a position filter d) :=
  h.content.setting.alike_checkDeclaration ha (h.content.map_declaration? d) (h.content.resolveAlias d)
    (fun e _ => h.content.map_declaration? e) position filter

theorem alike_checkContext (kind : ContextKind) (position : Option Position) (c : ContextId) :
    Alike (g.Steadfast a told) Eq (g.checkContext kind a position c)
      (g'.checkContext kind a position c) := by
  unfold checkContext
  rcases h.content.context_cases c with ⟨hc, hc'⟩ | ⟨data, _, _, hc, hc'⟩
  · rw [hc, hc']
    exact alike_warn_bind_both _ (alike_pure rfl)
  · rw [hc, hc']
    dsimp only
    split
    · exact alike_pure rfl
    · rw [h.content.setting.topOf?, funext h.content.setting.isClass]
      cases g.topOf? c with
      | none => exact alike_pure rfl
      | some other =>
        refine (h.content.setting.alike_fileSees ha other _ _ _).bind fun b b' hb => ?_
        subst hb
        exact alike_pure rfl

end Conceals

/-! ## 3. What is hidden from a file -/

section Hidden

variable {g : Graph} {a u : TopId} {told : TopId → Bool} (ha : g.IsTop a) (hne : a ≠ u)
  (htold : told u = false)

include ha hne htold

theorem yields_fileSees_hidden (start : Position) (anywhere : Bool) (position : Option Position) :
    Yields (g.Steadfast a told) (· = false) (g.fileSees a u start anywhere position) := by
  unfold fileSees
  rw [if_pos hne.symm]
  exact (yields_steadfast ha told u).mono fun b hb => hb.trans htold

/-- Of a file that it does not import a file sees no declaration. -/
theorem yields_checkDeclaration_hidden (position : Option Position) (filter : DeclFilter)
    {d : DeclId} (hd : g.topOfDeclaration? d = some u) :
    Yields (g.Steadfast a told) (· = []) (g.checkDeclaration a position filter d) := by
  obtain ⟨data, hdata, htop⟩ := Option.bind_eq_some_iff.mp hd
  unfold checkDeclaration liveDeclaration
  rw [hdata]
  refine yields_lift_bind ?_
  dsimp only [Noted.ofExcept]
  rw [htop]
  refine (yields_fileSees_hidden ha hne htold _ _ _).bind fun b hb => ?_
  rw [hb]
  exact yields_pure rfl

/-- Of a file that it does not import a file sees no context. -/
theorem yields_checkContext_hidden (kind : ContextKind) (position : Option Position)
    {c : ContextId} (hc : g.topOf? c = some u) :
    Yields (g.Steadfast a told) (· = []) (g.checkContext kind a position c) := by
  unfold checkContext
  cases g.context? c with
  | none => exact (yields_warn _).bind fun _ _ => yields_pure rfl
  | some data =>
    dsimp only
    split
    · exact yields_pure rfl
    · rw [hc]
      refine (yields_fileSees_hidden ha hne htold _ _ _).bind fun b hb => ?_
      rw [hb]
      exact yields_pure rfl

end Hidden

end Graph

/-- Items may be left out that are answered with nothing of what is made of the
    answers. -/
theorem Query.alike_gatherM_filterMap {α β γ : Type} {P : HopMemo → Prop}
    {f f' : α → Query (List β)} {p : α → Bool} {j k : β → Option γ}
    (hf : ∀ a, p a = true →
      Alike P (fun l l' => l.filterMap j = l'.filterMap k) (f a) (f' a))
    (hp : ∀ a, p a = false → Yields P (fun l => l.filterMap j = []) (f a)) (as : List α) :
    Alike P (fun l l' => l.filterMap j = l'.filterMap k) (gatherM f as)
      (gatherM f' (as.filter p)) := by
  induction as with
  | nil => exact alike_pure rfl
  | cons x rest ih =>
    cases hx : p x with
    | true =>
      rw [List.filter_cons_of_pos hx]
      refine (hf x hx).bind fun here here' hhere => ih.bind fun later later' hlater => ?_
      refine alike_pure ?_
      rw [List.filterMap_append, List.filterMap_append, hhere, hlater]
    | false =>
      rw [List.filter_cons_of_neg (by rw [hx]; exact Bool.false_ne_true)]
      intro m m' hm hm'
      obtain ⟨hnone, hm₁⟩ := hp x hx m hm
      obtain ⟨hrest, hkeeps⟩ := ih _ m' hm₁ hm'
      refine ⟨?_, hkeeps⟩
      show ((f x).answer m ++ (gatherM f rest).answer ((f x).memoAfter m)).filterMap j = _
      rw [List.filterMap_append, hnone, List.nil_append, hrest]

/-- Items that are answered with nothing may be left out. -/
theorem Query.alike_gatherM_filter {α β : Type} {P : HopMemo → Prop} {f f' : α → Query (List β)}
    {p : α → Bool} (hf : ∀ a, p a = true → Alike P Eq (f a) (f' a))
    (hp : ∀ a, p a = false → Yields P (· = []) (f a)) (as : List α) :
    Alike P Eq (gatherM f as) (gatherM f' (as.filter p)) := by
  have hall := alike_gatherM_filterMap (j := some) (k := some)
    (fun a ha => (hf a ha).mono fun _ _ h => congrArg (List.filterMap some) h)
    (fun a ha => (hp a ha).mono fun _ h => by rw [h]; rfl) as
  refine hall.mono fun l l' h => ?_
  rwa [List.filterMap_some, List.filterMap_some] at h

/-! ## 4. Two searches side by side -/

namespace Graph.Conceals

variable {g g' : Graph} {a u : TopId} {told : TopId → Bool} (h : Conceals u g g')
  (ha : g.IsTop a) (hne : a ≠ u) (htold : told u = false)

include h ha hne htold

theorem tablesAlike :
    TablesAlike (g.Steadfast a told) (fun _ => Eq) (fun _ => True) (fun _ => True) g g' a := by
  refine tablesAlike_anywhere congruence_eq (fun position filter key => ?_)
    fun d => (h.content.aliasOf? d).symm
  rw [h.declarations key]
  refine alike_gatherM_filter (fun d _ => h.alike_checkDeclaration ha position filter d)
    (fun d hd => ?_) _
  exact yields_checkDeclaration_hidden ha hne htold position filter (by simpa using hd)

theorem alike_contextsInTable (kind : ContextKind) (names : List NameTrie)
    (position : Option Position) :
    Alike (g.Steadfast a told) Eq (g.contextsInTable kind a names position)
      (g'.contextsInTable kind a names position) := by
  refine ((h.tablesAlike ha hne htold).expandNames trivial h.content.setting.limits _ _).bind
    fun _ _ hpaths => congruence_eq.gatherM (fun p _ => ?_) hpaths
  rw [h.contexts p]
  refine alike_gatherM_filter (fun c _ => h.alike_checkContext ha kind position c)
    (fun c hc => ?_) _
  exact yields_checkContext_hidden ha hne htold kind position (by simpa using hc)

end Graph.Conceals

namespace Graph.Conceals

variable {g g' : Graph} {a u : TopId} {told : TopId → Bool} (h : Conceals u g g')
  (ha : g.isRegistered a = true) (ha' : g'.isRegistered a = true) (hne : a ≠ u)
  (htold : told u = false)

include h ha ha' hne htold

/-- **A registered file finds the same declarations** without a file that it does not
    import. -/
theorem alike_findDeclarations (name : QualName) (position : Option Position)
    (type : Option TypeId) (flags : SearchFlags) :
    Alike (g.Steadfast a told) Eq (g.findDeclarations a.context name position type flags)
      (g'.findDeclarations a.context name position type flags) :=
  (h.tablesAlike (isTop_of_registered ha) hne htold).findDeclarations trivial h.content.setting.limits
    trivial ha ha' name type flags

/-- **A registered file finds the same contexts** without a file that it does not
    import. -/
theorem alike_findContexts (kind : ContextKind) (name : QualName) (position : Option Position)
    (flags : SearchFlags) :
    Alike (g.Steadfast a told) Eq (g.findContexts a.context kind name position flags)
      (g'.findContexts a.context kind name position flags) := by
  unfold findContexts
  rw [search_registered _ _ ha, search_registered _ _ ha', map_eq_pure_bind, map_eq_pure_bind]
  refine (h.alike_contextsInTable (isTop_of_registered ha) hne htold _ _ _).bind fun _ _ hcs => ?_
  exact alike_pure (by rw [hcs])

end Graph.Conceals

/-! ## 5. After every sequence of calls -/

/-- The questions in which only one file asks for others. A trace of imports is not
    among them: it asks on behalf of every file on the way. -/
def Question.isFrom (a : TopId) : Question → Bool
  | .importsTop source _ => source = a
  | .imports c _ | .findDeclarations c .. | .findContexts c .. => c = a.context
  | .findLocal .. | .resolveAlias _ => true
  | .importTrace .. => false

/-- What one file asks keeps a property of the memo. -/
structure Graph.Undisturbed (g : Graph) (a : TopId) (P : HopMemo → Prop) : Prop where
  importsTop : ∀ t, Keeps P (g.importsTop a t)
  findDeclarations : ∀ name position type flags,
    Keeps P (g.findDeclarations a.context name position type flags)
  findContexts : ∀ kind name position flags,
    Keeps P (g.findContexts a.context kind name position flags)

namespace Graph

variable {g g' : Graph} {a u : TopId} {told : TopId → Bool}

/-- With or without the file that is not imported, what a file asks does not change what
    it is told. -/
theorem Conceals.undisturbed (h : Conceals u g g') (ha : g.isRegistered a = true)
    (ha' : g'.isRegistered a = true) (hne : a ≠ u) (htold : told u = false) :
    g.Undisturbed a (g.Steadfast a told) ∧ g'.Undisturbed a (g.Steadfast a told) := by
  have htop := isTop_of_registered ha
  have himports := fun t => (yields_steadfast htop told t).keeps
  have hdeclarations := h.alike_findDeclarations ha ha' hne htold
  have hcontexts := h.alike_findContexts ha ha' hne htold
  constructor
  · exact ⟨himports, fun n p t f => (hdeclarations n p t f).keeps_left,
      fun k n p f => (hcontexts k n p f).keeps_left⟩
  · refine ⟨fun t => ?_, fun n p t f => (hdeclarations n p t f).keeps_right,
      fun k n p f => (hcontexts k n p f).keeps_right⟩
    rw [h.content.setting.importsTop]
    exact himports t

theorem Undisturbed.imports {P : HopMemo → Prop} (h : g.Undisturbed a P) (ha : g.IsTop a)
    (origin : ContextId) : Keeps P (g.imports a.context origin) := by
  unfold Graph.imports
  rw [ha]
  cases g.top? origin with
  | some t => exact h.importsTop t
  | none => exact Keeps.bind (yields_warn _) fun _ => keeps_pure _

end Graph

namespace Workspace

open ScopeGraph.Graph

/-- A question of a file keeps what its questions keep. -/
theorem keeps_question {P : HopMemo → Prop} {w : Workspace} {a : TopId}
    (h : w.graph.Undisturbed a P) (ha : w.graph.IsTop a) {q : Question}
    (hq : q.isFrom a = true) (hm : P w.memo) :
    (q.apply w).graph = w.graph ∧ P (q.apply w).memo := by
  cases q with
  | importsTop source target =>
    cases of_decide_eq_true hq
    exact ⟨rfl, (h.importsTop target _ hm).2⟩
  | importTrace source target => cases hq
  | imports c origin =>
    cases of_decide_eq_true hq
    exact ⟨rfl, (h.imports ha origin _ hm).2⟩
  | findDeclarations c name position type flags =>
    cases of_decide_eq_true hq
    exact ⟨rfl, (h.findDeclarations name position type flags _ hm).2⟩
  | findContexts c kind name position flags =>
    cases of_decide_eq_true hq
    exact ⟨rfl, (h.findContexts kind name position flags _ hm).2⟩
  | findLocal c name position filter => exact ⟨rfl, hm⟩
  | resolveAlias d => exact ⟨rfl, hm⟩

theorem keeps_questions {P : HopMemo → Prop} {w : Workspace} {a : TopId}
    (h : w.graph.Undisturbed a P) (ha : w.graph.IsTop a) {qs : List Question}
    (hqs : ∀ q ∈ qs, q.isFrom a = true) (hm : P w.memo) :
    (w.run (qs.map .question)).graph = w.graph ∧ P (w.run (qs.map .question)).memo := by
  induction qs generalizing w with
  | nil => exact ⟨rfl, hm⟩
  | cons q rest ih =>
    obtain ⟨hgraph, hm'⟩ := keeps_question h ha (hqs q List.mem_cons_self) hm
    have hrest : ∀ x ∈ rest, x.isFrom a = true := fun x hx => hqs x (List.mem_cons_of_mem q hx)
    rw [← hgraph] at h ha ⊢
    exact ih h ha hrest hm'

/-- **A file that is not imported has no say in a search.** Before and after it is
    unregistered a registered file finds the same declarations and the same contexts
    in the same order, whatever the file has in the table, and whatever the searching
    file asks before and in between. -/
theorem unregister_unimported (limits : Limits) (calls : List Call)
    (hfrees : (empty limits).FewFrees calls) (hnest : (empty limits).NestsNoTop calls)
    (a u : TopId) (ha : ((empty limits).run calls).graph.isRegistered a = true)
    (hu : ((empty limits).run calls).graph.IsTop u) (hne : a ≠ u)
    (himports : (((empty limits).run calls).ask (·.importsTop a u)).1 = false)
    (before after : List Question) (hbefore : ∀ q ∈ before, q.isFrom a = true)
    (hafter : ∀ q ∈ after, q.isFrom a = true) :
    let w := (empty limits).run calls
    let w' := ((Change.unregister u).apply (w.run (before.map .question))).run
      (after.map .question)
    Conceals u w.graph w'.graph ∧
      (∀ name position type flags,
        (w.ask (·.findDeclarations a.context name position type flags)).1 =
          (w'.ask (·.findDeclarations a.context name position type flags)).1) ∧
      ∀ kind name position flags,
        (w.ask (·.findContexts a.context kind name position flags)).1 =
          (w'.ask (·.findContexts a.context kind name position flags)).1 := by
  intro w w'
  have hw : w.graph.Orderly := (settled_run hfrees hnest).orderly
  let told : TopId → Bool := fun t => (w.graph.importsTop a t).answer w.memo
  have hm : w.graph.Steadfast a told w.memo := ⟨(faithful_run hfrees).coherent, fun _ => rfl⟩
  -- the questions before leave the graph alone and the file told as it was
  let w₁ := w.run (before.map .question)
  obtain ⟨hgraph, hm₁⟩ : w₁.graph = w.graph ∧ w.graph.Steadfast a told w₁.memo :=
    keeps_questions ((conceals_unregister hw hu).undisturbed ha
      (isRegistered_unregister hw hu hne ha) hne himports).1 (isTop_of_registered ha) hbefore hm
  -- the file goes, and the memo stays
  let w₂ := (Change.unregister u).apply w₁
  have hconceals : Conceals u w.graph w₂.graph := by
    rw [← hgraph] at hw hu ⊢
    exact conceals_unregister hw hu
  have ha₂ : w₂.graph.isRegistered a = true := by
    rw [← hgraph] at hw hu ha
    exact isRegistered_unregister hw hu hne ha
  have hm₂ : w.graph.Steadfast a told w₂.memo := by
    have hmemo : w₂.memo = w₁.memo := (Change.sameLinks rfl w₁).memo
    rw [hmemo]
    exact hm₁
  obtain ⟨hgraph', hm'⟩ : w'.graph = w₂.graph ∧ w.graph.Steadfast a told w'.memo :=
    keeps_questions (hconceals.undisturbed ha ha₂ hne himports).2 (isTop_of_registered ha₂)
      hafter hm₂
  rw [← hgraph'] at hconceals ha₂
  refine ⟨hconceals, fun name position type flags => ?_, fun kind name position flags => ?_⟩
  · exact (hconceals.alike_findDeclarations ha ha₂ hne himports name position type flags
      w.memo w'.memo hm hm').1
  · exact (hconceals.alike_findContexts ha ha₂ hne himports kind name position flags
      w.memo w'.memo hm hm').1

/-- Three registered files of which the first imports the second. The second has a
    namespace `N` with `x`, and an alias `A` of it. The third one has `N::x` too, an
    alias `A` of another namespace, and an import of `N`. -/
def rivalNames : List Call :=
  [.change (.createTop ⟨0⟩ {}), .change (.createTop ⟨1⟩ {}), .change (.createTop ⟨2⟩ {}),
    .change (.addImport ⟨0, 0⟩ ⟨1, 0⟩ none), .change (.createContext ⟨1, 0⟩ {}),
    .change (.setKind ⟨3, 0⟩ .nameSpace), .change (.setScopeName ⟨3, 0⟩ { path := ["N"] }),
    .change (.declare ⟨3, 0⟩ "x" {} .ordinary),
    .change (.declare ⟨1, 0⟩ "A" {} (.namespaceAlias { path := ["N"] })),
    .change (.createContext ⟨2, 0⟩ {}), .change (.setKind ⟨4, 0⟩ .nameSpace),
    .change (.setScopeName ⟨4, 0⟩ { path := ["N"] }), .change (.declare ⟨4, 0⟩ "x" {} .ordinary),
    .change (.declare ⟨2, 0⟩ "A" {} (.namespaceAlias { path := ["M"] })),
    .change (.declare ⟨2, 0⟩ .globalImport {} (.namespaceAlias { path := ["N"] })),
    .change (.register ⟨⟨2, 0⟩⟩), .change (.register ⟨⟨0, 0⟩⟩), .change (.register ⟨⟨1, 0⟩⟩)]

/-- The first file asks whether it imports the third one, which goes. The first file
    looks for the namespace `N`, and then for `A::x`: it is the one of the second file,
    as it was when the third one was there. -/
theorem unregister_unimported_rival :
    let w := (empty {}).run rivalNames
    let w' := ((Change.unregister ⟨⟨2, 0⟩⟩).apply
      (w.run ([.importsTop ⟨⟨0, 0⟩⟩ ⟨⟨2, 0⟩⟩].map .question))).run
        ([.findContexts ⟨0, 0⟩ .nameSpace { path := ["N"] } none {}].map .question)
    w.graph.table.findDeclarations ["N", "x"] = [⟨2, 0⟩, ⟨0, 0⟩] ∧
      w'.graph.table.findDeclarations ["N", "x"] = [⟨0, 0⟩] ∧
      (w'.ask (·.findDeclarations ⟨0, 0⟩ { path := ["A", "x"] } none none {})).1 = [⟨0, 0⟩] ∧
      (w'.ask (·.findContexts ⟨0, 0⟩ .nameSpace { path := ["N"] } none {})).1 = [⟨3, 0⟩] := by
  obtain ⟨hconceals, hdeclarations, hcontexts⟩ := unregister_unimported {} rivalNames
    (fewFrees_of_length (by decide +kernel)) (by decide +kernel) ⟨⟨0, 0⟩⟩ ⟨⟨2, 0⟩⟩
    (by decide +kernel) (by decide +kernel) (by decide) (by decide +kernel)
    [.importsTop ⟨⟨0, 0⟩⟩ ⟨⟨2, 0⟩⟩] [.findContexts ⟨0, 0⟩ .nameSpace { path := ["N"] } none {}]
    (by decide) (by decide)
  refine ⟨by decide +kernel, (hconceals.declarations _).trans (by decide +kernel),
    (hdeclarations _ _ _ _).symm.trans (by decide +kernel),
    (hcontexts _ _ _ _).symm.trans (by decide +kernel)⟩

end Workspace

end ScopeGraph
