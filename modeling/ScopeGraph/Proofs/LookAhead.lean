/-
  File:      ScopeGraph/Proofs/LookAhead.lean
  Subject:   What stands later in a file has no say in a search.

  A registered file looks for a name from a position in its text. Its own
  declarations behind the position are not seen, except those in classes. But a
  namespace alias is expanded from where it is written, and one in another file may
  be written further down than the position: then a later part of the text is seen
  after all (`Workspace.later_declaration_seen`).

  * `Graph.SeenAnywhere`: what a file comes upon whatever the position is;
  * `Graph.Removes`: a declaration is out of the graph, and the files are as they
    were;
  * `Workspace.later_declaration_unseen`: a later declaration that is not seen
    anywhere may be deleted, and the search finds the same; unless it names a
    namespace, and some namespace alias that is seen anywhere starts at or after it.
-/
import ScopeGraph.Proofs.ColdWalk
import ScopeGraph.Proofs.Noninterference
import ScopeGraph.Proofs.Tending

namespace ScopeGraph

open Query

/-! ## 1. What aliases stand for -/

namespace Graph

variable {g g' : Graph}

/-- An alias stands for a declaration that an alias names, and all else for itself. -/
theorem target_of_followAlias {n : Nat} {x e : DeclId} (h : g.followAlias n x = .ok e) :
    e = x ∨ ∃ y data, g.declaration? y = some data ∧ data.kind = .alias (some e) := by
  induction n generalizing x with
  | zero =>
    rcases followAlias_cases h with ⟨he, _⟩ | ⟨_, _, _, hn, _⟩
    · exact .inl he
    · cases hn
  | succ n ih =>
    rcases followAlias_cases h with ⟨he, _⟩ | ⟨m, target, data, hn, hdata, hkind, hrest⟩
    · exact .inl he
    · cases hn
      rcases ih hrest with rfl | hfound
      · exact .inr ⟨x, data, hdata, hkind⟩
      · exact .inr hfound

/-- A declaration that no alias names may go without a difference to what the others
    stand for. -/
theorem resolveAlias_of_untargeted {d : DeclId} (hlimits : g'.limits = g.limits)
    (hsame : ∀ x, x ≠ d → g'.declaration? x = g.declaration? x)
    (htarget : ∀ x data, g.declaration? x = some data → data.kind ≠ .alias (some d)) {x : DeclId}
    (hx : x ≠ d) : g'.resolveAlias x = g.resolveAlias x := by
  have hfollow : ∀ n x, x ≠ d → g'.followAlias n x = g.followAlias n x := by
    intro n
    induction n with
    | zero =>
      intro x hx
      unfold followAlias
      rw [hsame x hx]
    | succ n ih =>
      intro x hx
      unfold followAlias
      rw [hsame x hx]
      cases hdata : g.declaration? x with
      | none => rfl
      | some data =>
        dsimp only
        split
        · rfl
        · next y hkind => exact ih y fun e => htarget x data hdata (by rw [hkind, e])
        · rfl
  unfold resolveAlias
  rw [hlimits, hfollow _ x hx]

/-! ## 2. What is seen from everywhere -/

/-- **A file comes upon a declaration whatever the position looked from**: it is in
    another file to which imports lead, or in a class of the file, or an alias stands
    for it. -/
def SeenAnywhere (g : Graph) (t : TopId) (d : DeclId) : Prop :=
  (∃ other, g.topOfDeclaration? d = some other ∧ other ≠ t ∧ g.TopPath t other) ∨
    (g.topOfDeclaration? d = some t ∧
      ∃ data, g.declaration? d = some data ∧ data.context.any g.isClass = true) ∨
    ∃ x data, g.declaration? x = some data ∧ data.kind = .alias (some d)

theorem not_seenAnywhere {t : TopId} {d : DeclId} {data : Declaration}
    (hdata : g.declaration? d = some data) (htop : g.topOfDeclaration? d = some t)
    (hclass : data.context.any g.isClass = false)
    (htarget : ∀ x found, g.declaration? x = some found → found.kind ≠ .alias (some d)) :
    ¬ g.SeenAnywhere t d := by
  intro h
  rcases h with ⟨other, hother, hne, _⟩ | ⟨_, found, hfound, hin⟩ | ⟨x, found, hfound, hkind⟩
  · exact hne (Option.some.inj (hother.symm.trans htop))
  · cases hdata.symm.trans hfound
    rw [hclass] at hin
    cases hin
  · exact htarget x found hfound hkind

/-- What a file sees from a position starts at it or before it, or is seen anywhere. -/
theorem Sees.start_le {t : TopId} {p : Position} {d : DeclId} {data : Declaration}
    (h : g.Sees t (some p) d) (hdata : g.declaration? d = some data) (hd : ¬ g.SeenAnywhere t d) :
    data.range.start ≤ p := by
  obtain ⟨data', c, other, hdata', hc, hother, hseen⟩ := h
  cases hdata.symm.trans hdata'
  have htop : g.topOfDeclaration? d = some other := by
    unfold topOfDeclaration?
    rw [hdata, Option.bind_some, hc, Option.bind_some, hother]
  rcases hseen with ⟨rfl, hbefore | hclass⟩ | ⟨hne, hpath⟩
  · exact hbefore p rfl
  · refine absurd (.inr (.inl ⟨htop, data, hdata, ?_⟩)) hd
    rw [hc, Option.any_some]
    exact isClass_iff.mpr hclass
  · exact absurd (.inl ⟨other, htop, hne, hpath⟩) hd

/-- A namespace alias that a file finds from before a position starts before the
    position, if none that is seen anywhere starts at it or after it. -/
theorem Finds.alias_start_lt {t : TopId} {p start : Position} (hp : p < start)
    (hrest : ∀ e found, g.declaration? e = some found → found.kind.isNamespaceAlias = true →
      start ≤ found.range.start → ¬ g.SeenAnywhere t e)
    {filter : DeclFilter} {x e : DeclId} (h : g.Finds t (some p) filter x e) {a : TableAlias}
    (ha : g.aliasOf? e = some a) : a.range.start < start := by
  obtain ⟨found, hfound, ha⟩ := Option.bind_eq_some_iff.mp ha
  obtain ⟨target, htarget, rfl⟩ := Option.map_eq_some_iff.mp ha
  by_contra hlate
  have hlate := Position.not_lt.mp hlate
  have hkind : found.kind.isNamespaceAlias = true := by
    cases hk : found.kind <;> rw [hk] at htarget <;> first | rfl | cases htarget
  have hunseen := hrest e found hfound hkind hlate
  rcases target_of_followAlias h.2.1 with rfl | ⟨y, other, hother, hy⟩
  · have hstart := h.1.start_le hfound hunseen
    exact absurd hp (Position.not_lt.mpr (Position.le_trans hlate hstart))
  · exact hunseen (.inr (.inr ⟨y, other, hother, hy⟩))

/-- **A declaration names a namespace**: it is a namespace alias, or an alias that
    stands for one. -/
def NamesNamespace (g : Graph) (d : DeclId) : Prop :=
  ∃ e, g.resolveAlias d = .ok e ∧ (g.declaration? e).any (·.kind.isNamespaceAlias) = true

/-- A file is answered only with what it finds, whatever it was told before. -/
theorem Steadfast.yields_finds {t : TopId} (ht : g.IsTop t) {told : TopId → Bool}
    (position : Option Position) (filter : DeclFilter) (x : DeclId) :
    Yields (g.Steadfast t told) (fun es => ∀ e ∈ es, g.Finds t position filter x e)
      (g.checkDeclaration t position filter x) := by
  refine Graph.yields_finds (fun other m hm => ?_) position filter x
  exact ⟨path_of_importsTop ht hm.1, (yields_steadfast ht told other m hm).2⟩

/-! ## 3. A declaration out of the graph -/

/-- **A declaration is out of the graph and out of the table**, and the files are as
    they were. -/
structure Removes (d : DeclId) (g g' : Graph) : Prop where
  setting : SameSetting g g'
  registered : ∀ t, g'.isRegistered t = g.isRegistered t
  declarations : ∀ x, g'.declaration? x = if x = d then none else g.declaration? x
  table : ∀ k, g'.table.findDeclarations k = (g.table.findDeclarations k).filter (· ≠ d)

end Graph

namespace Workspace

open ScopeGraph.Graph Outline

variable {w : Workspace} {d : DeclId} {data : Declaration}

theorem sameSetting_discard (w : Workspace) (d : DeclId) (data : Declaration) :
    SameSetting w.graph (w.discard d data).graph := by
  have hfile : ∀ (data : Context) (f : FileRecord → FileRecord),
      { data with file := data.file.map f }.setting = data.setting := by
    intro data f
    simp [Context.setting, Context.isTop]
  have hothers : ∀ g g' : Graph, g'.contexts = g.contexts → g'.limits = g.limits →
      SameSetting g g' := by
    intro g g' hcontexts hlimits
    show (g'.contexts.map Context.setting, g'.limits) = (g.contexts.map Context.setting, g.limits)
    rw [hcontexts, hlimits]
  exact View.Same.graph (V := .ofGraph .setting) (.discard (fun _ _ => rfl) (fun _ _ => rfl)
    hfile hothers (fun _ _ _ => rfl) w d data)

theorem table_discard (w : Workspace) (d : DeclId) (data : Declaration) :
    (w.discard d data).graph.table.declarations =
      w.graph.table.declarations.rekey d data.key none := by
  unfold discard
  generalize data.context.bind w.graph.topOf? = top
  have hdetach : (whenSome data.context (fun c w => w.onGraph (·.detach c d)) w).graph.table =
      w.graph.table := by
    cases data.context with
    | none => rfl
    | some c => exact (SameEntries.detach w.graph c d).table
  rw [← hdetach]
  generalize whenSome data.context _ w = w₁
  cases data.key <;> cases data.internal <;> cases top <;> rfl

/-- **A declaration that is deleted is out of the graph.** -/
theorem removes_deleteDeclaration (hw : w.graph.Entered) (hdata : w.graph.declaration? d = some data) :
    Removes d w.graph ((Change.deleteDeclaration d).apply w).graph := by
  have happly : (Change.deleteDeclaration d).apply w = w.discard d data := by
    show (Edit.deleteDeclaration d).after w = _
    unfold Edit.after
    rw [Edit.deleteDeclaration_apply, hdata]
  rw [happly]
  have hdiscards := discards hdata
  refine ⟨sameSetting_discard w d data, fun t => ?_, declaration?_discard w d data, fun k => ?_⟩
  · have hany : ∀ o : Option Form, o.any (fun f => f.isTop && f.registered) =
        (o.map Form.bare).any (fun f => f.isTop && f.registered) := by
      intro o
      cases o <;> rfl
    rw [isRegistered_eq, isRegistered_eq, hany, hdiscards.sameTree t.context, ← hany]
  · have hheld := hdiscards.entered hw
    refine Without.eq_filter ?_ fun x hx => ?_
    · show Without _ _ ((w.discard d data).graph.table.declarations.find k)
      rw [table_discard]
      exact .rekey hw.declarations (by simp) data.key k
    · have hkey := (hheld.declarations.mem k x).mp hx
      rw [hdiscards.declarations] at hkey
      by_cases hxd : x = d
      · rw [if_pos hxd] at hkey
        cases hkey
      · simpa using hxd

end Workspace

/-! ## 4. Two searches side by side -/

namespace Graph.Removes

variable {g g' : Graph} {d : DeclId} {data : Declaration} {t : TopId} {told : TopId → Bool}
  (h : Removes d g g') (ht : g.IsTop t) (hdata : g.declaration? d = some data)
  (hd : ¬ g.SeenAnywhere t d)

include hd

/-- No other declaration stands for one that is not seen anywhere. -/
theorem ne_of_resolveAlias {x e : DeclId} (hx : x ≠ d) (hres : g.resolveAlias x = .ok e) :
    e ≠ d := by
  intro hed
  rcases target_of_followAlias hres with rfl | ⟨y, found, hfound, hkind⟩
  · exact hx hed
  · rw [hed] at hkind
    exact hd (.inr (.inr ⟨y, found, hfound, hkind⟩))

include hdata

/-- From before a declaration it is not found. -/
theorem ne_of_finds {p : Position} (hp : p < data.range.start) {filter : DeclFilter} {x e : DeclId}
    (h : g.Finds t (some p) filter x e) : e ≠ d := by
  obtain ⟨hsees, hres, _⟩ := h
  by_cases hx : x = d
  · subst hx
    exact absurd hp (Position.not_lt.mpr (hsees.start_le hdata hd))
  · exact ne_of_resolveAlias hd hx hres

include ht

/-- Before a declaration nothing is found under it. -/
theorem yields_nothing_before {p : Position} (hp : p < data.range.start) (filter : DeclFilter) :
    Yields (g.Steadfast t told) (· = []) (g.checkDeclaration t (some p) filter d) := by
  refine (Steadfast.yields_finds ht (some p) filter d).mono fun es hes => ?_
  refine List.eq_nil_iff_forall_not_mem.mpr fun e he => ?_
  exact absurd hp (Position.not_lt.mpr ((hes e he).1.start_le hdata hd))

/-- No namespace alias is found under a declaration that names no namespace. Under one
    that does, none is found from before it. -/
theorem yields_no_alias {position : Option Position}
    (hposition : g.NamesNamespace d → ∃ p, position = some p ∧ p < data.range.start) :
    Yields (g.Steadfast t told) (·.filterMap g.aliasOf? = [])
      (g.checkDeclaration t position {} d) := by
  refine (Steadfast.yields_finds ht position {} d).mono fun es hes => ?_
  refine List.filterMap_eq_nil_iff.mpr fun e he => Option.eq_none_iff_forall_ne_some.mpr ?_
  intro a ha
  obtain ⟨hsees, hres, _⟩ := hes e he
  have hnames : g.NamesNamespace d := by
    refine ⟨e, hres, ?_⟩
    rw [any_isNamespaceAlias, ha]
    rfl
  obtain ⟨p, rfl, hp⟩ := hposition hnames
  exact absurd hp (Position.not_lt.mpr (hsees.start_le hdata hd))

omit hdata

include h

/-- About the other declarations a file is answered the same. -/
theorem alike_checkDeclaration (position : Option Position) (filter : DeclFilter) {x : DeclId}
    (hx : x ≠ d) :
    Alike (g.Steadfast t told) Eq (g.checkDeclaration t position filter x)
      (g'.checkDeclaration t position filter x) := by
  have hsame : ∀ y, y ≠ d → g'.declaration? y = g.declaration? y :=
    fun y hy => (h.declarations y).trans (if_neg hy)
  refine h.setting.alike_checkDeclaration ht (by rw [hsame x hx]) ?_ (fun e hres => ?_) _ _
  · refine resolveAlias_of_untargeted h.setting.limits hsame (fun y found hfound hkind => ?_) hx
    exact hd (.inr (.inr ⟨y, found, hfound, hkind⟩))
  · rw [hsame e (ne_of_resolveAlias hd hx hres)]

/-- The others are the same namespace aliases or none. -/
theorem alike_aliases (position : Option Position) {x : DeclId} (hx : x ≠ d) :
    Alike (g.Steadfast t told)
      (fun es es' => es.filterMap g.aliasOf? = es'.filterMap g'.aliasOf?)
      (g.checkDeclaration t position {} x) (g'.checkDeclaration t position {} x) := by
  refine ((h.alike_checkDeclaration ht hd position {} hx).withYields
    (Steadfast.yields_finds ht position {} x)).mono fun es es' hes => ?_
  obtain ⟨rfl, hfinds⟩ := hes
  refine List.filterMap_congr fun e he => ?_
  unfold aliasOf?
  rw [h.declarations e, if_neg (ne_of_resolveAlias hd hx (hfinds e he).2.1)]

include hdata

/-- **From before a declaration the tables answer alike**, with it and without it. If it
    names a namespace, this is so if no namespace alias that is seen anywhere starts at
    or after it. -/
theorem tablesAlike (hrest : g.NamesNamespace d → ∀ e found, g.declaration? e = some found →
      found.kind.isNamespaceAlias = true → data.range.start ≤ found.range.start →
      ¬ g.SeenAnywhere t e) :
    TablesAlike (g.Steadfast t told) (fun _ => Eq)
      (fun position => g.NamesNamespace d → ∃ p, position = some p ∧ p < data.range.start)
      (fun position => ∃ p, position = some p ∧ p < data.range.start) g g' t where
  congruence := congruence_eq
  declarations position hposition filter key := by
    obtain ⟨p, rfl, hp⟩ := hposition
    refine Alike.bind (R := fun ds ds' => ds = ds' ∧ ∀ e ∈ ds, e ≠ d) ?_ fun ds ds' hds => ?_
    · rw [h.table key]
      refine (alike_gatherM_filter (fun x hx => ?_) (fun x hx => ?_) _).withYields ?_
      · exact h.alike_checkDeclaration ht hd (some p) filter (by simpa using hx)
      · have hxd : x = d := by simpa using hx
        rw [hxd]
        exact yields_nothing_before ht hdata hd hp filter
      · exact yields_gatherM_all _ fun x _ => (Steadfast.yields_finds ht (some p) filter x).mono
          fun es hes e he => ne_of_finds hdata hd hp (hes e he)
    · obtain ⟨rfl, hne⟩ := hds
      refine alike_pure (List.filter_congr fun e he => ?_)
      rw [h.declarations e, if_neg (hne e he)]
  aliases position hposition key := by
    refine Alike.withYields ?_ ?_
    · refine Alike.bind (R := fun ds ds' => ds.filterMap g.aliasOf? = ds'.filterMap g'.aliasOf?) ?_
        fun ds ds' hds => alike_pure hds
      rw [h.table key]
      refine alike_gatherM_filterMap (fun x hx => ?_) (fun x hx => ?_) _
      · exact h.alike_aliases ht hd position (by simpa using hx)
      · have hxd : x = d := by simpa using hx
        rw [hxd]
        exact yields_no_alias ht hdata hd hposition
    · have hall : Yields (g.Steadfast t told) (fun ds => ∀ e ∈ ds, ∃ x, g.Finds t position {} x e)
          (g.checkDeclarations t position {} (g.table.findDeclarations key)) :=
        yields_gatherM_all _ fun x _ => (Steadfast.yields_finds ht position {} x).mono
          fun es hes e he => ⟨x, hes e he⟩
      refine hall.bind fun ds hds => yields_pure fun a ha hnames => ?_
      obtain ⟨p, rfl, hp⟩ := hposition hnames
      obtain ⟨e, he, ha⟩ := List.mem_filterMap.mp ha
      obtain ⟨x, hfinds⟩ := hds e he
      exact ⟨a.range.start, rfl, hfinds.alias_start_lt hp (hrest hnames) ha⟩

end Graph.Removes

/-! ## 5. After every sequence of calls -/

namespace Workspace

open ScopeGraph.Graph

/-- Two registered files of which the first imports the second. In the first one the
    namespace `M` with `foo` is at line 5, and a namespace `N` that imports `M` at line
    50. In the second one the namespace `A` imports a namespace at a given line. -/
def farImport (line : Nat) (imported : Ident) : List Call :=
  [.change (.createTop ⟨0⟩ (.lines 0 200)), .change (.createTop ⟨1⟩ (.lines 0 200)),
    .change (.addImport ⟨0, 0⟩ ⟨1, 0⟩ none), .change (.createContext ⟨1, 0⟩ (.lines 10 190)),
    .change (.setKind ⟨2, 0⟩ .nameSpace), .change (.setScopeName ⟨2, 0⟩ { path := ["A"] }),
    .change (.declare ⟨2, 0⟩ .globalImport (.lines line (line + 1))
      (.namespaceAlias { path := [imported] })),
    .change (.createContext ⟨0, 0⟩ (.lines 1 8)), .change (.setKind ⟨3, 0⟩ .nameSpace),
    .change (.setScopeName ⟨3, 0⟩ { path := ["M"] }),
    .change (.declare ⟨3, 0⟩ "foo" (.lines 5 6) .ordinary),
    .change (.createContext ⟨0, 0⟩ (.lines 40 60)), .change (.setKind ⟨4, 0⟩ .nameSpace),
    .change (.setScopeName ⟨4, 0⟩ { path := ["N"] }),
    .change (.declare ⟨4, 0⟩ .globalImport (.lines 50 51) (.namespaceAlias { path := ["M"] })),
    .change (.register ⟨⟨0, 0⟩⟩), .change (.register ⟨⟨1, 0⟩⟩)]

/-- The other file imports `N` at line 100, and so the import at line 50 is seen from
    line 10: `A::foo` is found, and no more if the import is deleted. -/
theorem later_declaration_seen :
    let w := (empty {}).run (farImport 100 "N")
    let find (w : Workspace) := (w.ask (·.findDeclarations ⟨0, 0⟩ { path := ["A", "foo"] }
      (some ⟨10, 0⟩) none {})).1
    (empty {}).NestsNoTop (farImport 100 "N") ∧ w.graph.isRegistered ⟨⟨0, 0⟩⟩ = true ∧
      w.graph.topOfDeclaration? ⟨2, 0⟩ = some ⟨⟨0, 0⟩⟩ ∧
      (w.graph.declaration? ⟨2, 0⟩).any (fun data =>
        !data.context.any w.graph.isClass && decide ((⟨10, 0⟩ : Position) < data.range.start)) ∧
      (∀ e ∈ w.graph.declarations.entries, e.2.kind.isAlias = false) ∧
      find w = [⟨1, 0⟩] ∧ find ((Change.deleteDeclaration ⟨2, 0⟩).apply w) = [] := by
  decide +kernel

/-- **What stands later in a file has no say in a search.** From before a declaration
    that is in the file, not in a class and not what an alias stands for, a registered
    file finds the same before and after the declaration is deleted. If the declaration
    names a namespace, this is so if no namespace alias that is seen anywhere starts at
    or after it. -/
theorem later_declaration_unseen (limits : Limits) (calls : List Call)
    (hfrees : (empty limits).FewFrees calls) (t : TopId) (d : DeclId) (data : Declaration)
    (p : Position) (ht : ((empty limits).run calls).graph.isRegistered t = true)
    (hdata : ((empty limits).run calls).graph.declaration? d = some data)
    (htop : ((empty limits).run calls).graph.topOfDeclaration? d = some t)
    (hclass : data.context.any ((empty limits).run calls).graph.isClass = false)
    (hlater : p < data.range.start)
    (htarget : ∀ x found, ((empty limits).run calls).graph.declaration? x = some found →
      found.kind ≠ .alias (some d))
    (hrest : ((empty limits).run calls).graph.NamesNamespace d →
      ∀ e found, ((empty limits).run calls).graph.declaration? e = some found →
      found.kind.isNamespaceAlias = true → data.range.start ≤ found.range.start →
      ¬ ((empty limits).run calls).graph.SeenAnywhere t e)
    (name : QualName) (type : Option TypeId) (flags : SearchFlags) :
    let w := (empty limits).run calls
    let find (w : Workspace) := w.ask (·.findDeclarations t.context name (some p) type flags)
    let delete := (Change.deleteDeclaration d).apply
    (delete w).graph.declaration? d = none ∧ (find (delete w)).1 = (find w).1 ∧
      (find (delete (find w).2)).1 = (find w).1 := by
  intro w find delete
  obtain ⟨s, hkept, _⟩ := kept_run hfrees
  have hentered : w.graph.Entered := hkept.kempt.consistent.entered
  let told : TopId → Bool := fun u => (w.graph.importsTop t u).answer w.memo
  have hm : w.graph.Steadfast t told w.memo := ⟨(faithful_run hfrees).coherent, fun _ => rfl⟩
  -- with the same graph and any memo that tells the file the same
  have hfind : ∀ w₁ : Workspace, w₁.graph = w.graph → w.graph.Steadfast t told w₁.memo →
      Removes d w.graph (delete w₁).graph ∧ (find (delete w₁)).1 = (find w).1 ∧
        w.graph.Steadfast t told (find w).2.memo := by
    intro w₁ hgraph hm₁
    have hremoves : Removes d w.graph (delete w₁).graph := by
      rw [← hgraph] at hentered hdata ⊢
      exact removes_deleteDeclaration hentered hdata
    have hmemo : (delete w₁).memo = w₁.memo := (Change.sameLinks rfl w₁).memo
    have htables : TablesAlike (w.graph.Steadfast t told) _ _ _ w.graph (delete w₁).graph t :=
      hremoves.tablesAlike (isTop_of_registered ht) hdata
        (not_seenAnywhere hdata htop hclass htarget) hrest
    have halike := htables.findDeclarations (fun _ => ⟨p, rfl, hlater⟩) hremoves.setting.limits
      ⟨p, rfl, hlater⟩ ht ((hremoves.registered t).trans ht) name type flags
    rw [← hmemo] at hm₁
    obtain ⟨hsame, hafter, _⟩ := halike w.memo (delete w₁).memo hm hm₁
    exact ⟨hremoves, hsame.symm, hafter⟩
  obtain ⟨hremoves, hsame, hafter⟩ := hfind w rfl hm
  refine ⟨(hremoves.declarations d).trans (if_pos rfl), hsame, (hfind (find w).2 rfl hafter).2.1⟩

/-- The other file imports `M` at line 20 and not `N`. So `A::foo` is found from line 10,
    and it is found too if the import at line 50 is deleted. -/
theorem later_declaration_unseen_near :
    let w := (empty {}).run (farImport 20 "M")
    let find (w : Workspace) := w.ask (·.findDeclarations ⟨0, 0⟩ { path := ["A", "foo"] }
      (some ⟨10, 0⟩) none {})
    let delete := (Change.deleteDeclaration ⟨2, 0⟩).apply
    (find w).1 = [⟨1, 0⟩] ∧ (find (delete w)).1 = [⟨1, 0⟩] ∧
      (find (delete (find w).2)).1 = [⟨1, 0⟩] := by
  intro w find delete
  obtain ⟨data, hdata⟩ : ∃ data, w.graph.declaration? ⟨2, 0⟩ = some data :=
    Option.isSome_iff_exists.mp (by decide +kernel)
  have hany : ∀ f : Declaration → Bool, (w.graph.declaration? ⟨2, 0⟩).any f = true → f data = true := by
    intro f hf
    rw [hdata] at hf
    exact hf
  have hentries : ∀ e ∈ w.graph.declarations.entries, e.2.kind.isAlias = false ∧
      (e.2.kind.isNamespaceAlias = true → (⟨50, 0⟩ : Position) ≤ e.2.range.start → e.1 = ⟨2, 0⟩) := by
    decide +kernel
  have htop : w.graph.topOfDeclaration? ⟨2, 0⟩ = some ⟨⟨0, 0⟩⟩ := by decide +kernel
  have hclass : data.context.any w.graph.isClass = false :=
    of_decide_eq_true (hany (fun data => decide (data.context.any w.graph.isClass = false))
      (by decide +kernel))
  have hstart : data.range.start = ⟨50, 0⟩ :=
    of_decide_eq_true (hany (fun data => decide (data.range.start = ⟨50, 0⟩)) (by decide +kernel))
  have hlater : (⟨10, 0⟩ : Position) < data.range.start := by
    rw [hstart]
    decide
  have htarget : ∀ x found, w.graph.declaration? x = some found →
      found.kind ≠ .alias (some ⟨2, 0⟩) := by
    intro x found hfound hkind
    have halias := (hentries (x, found) (Store.mem_entries_iff.mpr hfound)).1
    rw [hkind] at halias
    cases halias
  have hrest : ∀ e found, w.graph.declaration? e = some found →
      found.kind.isNamespaceAlias = true → data.range.start ≤ found.range.start →
      ¬ w.graph.SeenAnywhere ⟨⟨0, 0⟩⟩ e := by
    intro e found hfound hkind hlate
    rw [hstart] at hlate
    have he : e = ⟨2, 0⟩ :=
      (hentries (e, found) (Store.mem_entries_iff.mpr hfound)).2 hkind hlate
    rw [he]
    exact not_seenAnywhere hdata htop hclass htarget
  have hdeleted := later_declaration_unseen {} (farImport 20 "M") (fewFrees_of_length (by decide))
    ⟨⟨0, 0⟩⟩ ⟨2, 0⟩ data ⟨10, 0⟩ (by decide +kernel) hdata htop hclass hlater htarget (fun _ => hrest)
    { path := ["A", "foo"] } none {}
  have hfound : (find w).1 = [⟨1, 0⟩] := by decide +kernel
  exact ⟨hfound, hdeleted.2.1.trans hfound, hdeleted.2.2.trans hfound⟩

end Workspace

end ScopeGraph
