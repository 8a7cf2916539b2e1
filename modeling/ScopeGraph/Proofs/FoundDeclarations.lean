/-
  File:      ScopeGraph/Proofs/FoundDeclarations.lean
  Subject:   What a search for declarations may answer with.

  Answers come from three places: from the index of a context, from the symbol table,
  and from what is found through imports and parents. The first two look at what an
  alias stands for and pass over the rest, each in an order of its own; the walk
  through imports and parents adds nothing.

  * `Graph.steady_eligible`: each place answers with what is eligible;
  * `Workspace.found_clean`: so do both searches, and they list no answer twice.
-/
import ScopeGraph.Proofs.AskedNames

namespace ScopeGraph

open Query

namespace Graph

variable {g : Graph} {filter : DeclFilter} {P : HopMemo → Prop}

/-! ## 1. One answer -/

/-- A declaration that is there, stands neither for another one nor for a namespace,
    and passes the filter. -/
def Eligible (g : Graph) (filter : DeclFilter) (d : DeclId) : Prop :=
  ∃ data, g.declaration? d = some data ∧ data.kind.isAlias = false ∧
    data.kind.isNamespaceAlias = false ∧ filter.accepts data = true

/-- What a declaration stands for is eligible, if it is no namespace and passes the filter. -/
theorem eligible_of_resolved {d e : DeclId} {found : Declaration} (hres : g.resolveAlias d = .ok e)
    (hfound : g.declaration? e = some found) (hplain : found.kind.isNamespaceAlias = false)
    (haccepts : filter.accepts found = true) : g.Eligible filter e := by
  obtain ⟨data, hdata, halias⟩ := (chain_of_followAlias hres).1
  cases hfound.symm.trans hdata
  exact ⟨found, hfound, halias, hplain, haccepts⟩

theorem eligible_of_checkLocal {data : Context} {position : Option Position} {hit d : DeclId}
    (h : d ∈ (g.checkLocal data position filter hit).value) : g.Eligible filter d := by
  obtain ⟨hres, found, hfound, hplain, haccepts, _⟩ := mem_checkLocal h
  exact eligible_of_resolved hres hfound hplain haccepts

/-! ## 2. Index, table and walk -/

/-- **The table** answers with what is eligible: what passes the filter there and is a
    namespace alias is left out at last. -/
theorem yields_eligible_inTable (hP : ∀ s t, Keeps P (g.hopTowards s t)) (top : TopId)
    (names : List NameTrie) (position : Option Position) :
    Yields P (fun ds => ∀ d ∈ ds, g.Eligible filter d)
      (g.declarationsInTable filter top names position) := by
  refine Yields.bind (keeps_expandNames hP top position false _) fun paths _ => ?_
  refine yields_gatherM_all paths fun p _ => ?_
  have hchecked : Yields P (fun ds => ∀ e ∈ ds, ∃ d, g.resolveAlias d = .ok e ∧
        ∃ found, g.declaration? e = some found ∧ filter.accepts found = true)
      (g.checkDeclarations top position filter (g.table.findDeclarations p)) := by
    refine yields_gatherM_all _ fun d _ => ?_
    exact (yields_resolved hP top position filter d).mono fun es hes e he => ⟨d, hes e he⟩
  refine hchecked.bind fun ds hds => yields_pure fun e he => ?_
  obtain ⟨hmem, hplain⟩ := List.mem_filter.mp he
  obtain ⟨d, hres, found, hfound, haccepts⟩ := hds e hmem
  rw [hfound] at hplain
  exact eligible_of_resolved hres hfound (by simpa using hplain) haccepts

/-- **Each place of a search answers with what is eligible**, whatever the names are. -/
theorem steady_eligible (hP : ∀ s t, Keeps P (g.hopTowards s t)) (filter : DeclFilter) :
    g.Steady P (g.declarationQuest filter) (fun _ => True) (g.Eligible filter) where
  table top names position _ := yields_eligible_inTable hP top names position
  here c data names position _ _ d hd := by
    obtain ⟨t, _, _, _, hit, _, hd⟩ := mem_declarationsHere hd
    exact eligible_of_checkLocal hd
  aliased _ _ _ _ := trivial
  unrooted _ _ := trivial

/-- **The index of a context** answers with what is eligible, each answer once. -/
theorem eligible_of_findLocal (c : ContextId) (name : Ident) (position : Option Position) :
    (g.findLocal c name position filter).value.Nodup ∧
      ∀ d ∈ (g.findLocal c name position filter).value, g.Eligible filter d := by
  unfold findLocal
  cases g.context? c with
  | none => exact ⟨List.nodup_nil, fun d hd => absurd hd List.not_mem_nil⟩
  | some data =>
    refine ⟨nodup_eraseDups _, fun d hd => ?_⟩
    have hmatch := List.mem_eraseDups.mp hd
    unfold localMatches at hmatch
    rw [Noted.value_gatherM] at hmatch
    obtain ⟨hit, _, hd⟩ := List.mem_flatMap.mp hmatch
    exact eligible_of_checkLocal hd

/-- **Answers are clean**: each is listed once, is there, stands neither for another
    declaration nor for a namespace, is a function if only functions are asked for, and
    has the type that is asked for. -/
structure Clean (g : Graph) (type : Option TypeId) (flags : SearchFlags) (ds : List DeclId) :
    Prop where
  nodup : ds.Nodup
  eligible : ∀ d ∈ ds, ∃ data, g.declaration? d = some data ∧ data.kind.isAlias = false ∧
    data.kind.isNamespaceAlias = false ∧ (flags.onlyFunctions = true → data.kind = .function) ∧
    ∀ t, type = some t → data.type = some t

theorem clean_of_eligible {type : Option TypeId} {flags : SearchFlags} {ds : List DeclId}
    (h : ds.Nodup ∧ ∀ d ∈ ds, g.Eligible ⟨type, flags.onlyFunctions⟩ d) : g.Clean type flags ds := by
  refine ⟨h.1, fun d hd => ?_⟩
  obtain ⟨data, hdata, halias, hplain, haccepts⟩ := h.2 d hd
  obtain ⟨htype, hfunction⟩ := DeclFilter.accepts_iff.mp haccepts
  exact ⟨data, hdata, halias, hplain, hfunction, htype⟩

end Graph

/-! ## 3. Both searches -/

namespace Workspace

/-- **Searches answer cleanly**, whatever the workspace holds: aliases in circles, aliases of
    what is gone, imports in circles, any memo. -/
theorem found_clean (w : Workspace) (c : ContextId) (name : QualName) (ident : Ident)
    (position : Option Position) (type : Option TypeId) (flags : SearchFlags) :
    w.graph.Clean type flags (w.ask (·.findDeclarations c name position type flags)).1 ∧
      w.graph.Clean type flags
        (w.ask fun g => g.findLocal c ident position ⟨type, flags.onlyFunctions⟩).1 := by
  have hsteady : w.graph.Steady (fun _ => True)
      (w.graph.declarationQuest ⟨type, flags.onlyFunctions⟩) (fun _ => True)
      (w.graph.Eligible ⟨type, flags.onlyFunctions⟩) :=
    Graph.steady_eligible (fun _ _ _ _ => ⟨trivial, trivial⟩) _
  have hfound : Yields (fun _ => True)
      (fun ds => ds.Nodup ∧ ∀ d ∈ ds, w.graph.Eligible ⟨type, flags.onlyFunctions⟩ d)
      (w.graph.findDeclarations c name position type flags) :=
    hsteady.search flags.climbs c (fun _ _ _ _ _ _ _ => trivial) trivial position
  exact ⟨Graph.clean_of_eligible (hfound w.memo trivial).1,
    Graph.clean_of_eligible (Graph.eligible_of_findLocal c ident position)⟩

/-- A context with seven declarations of `x`: a function, two aliases that come to it, an
    alias that lost its target, an alias that names itself, a namespace alias and an alias
    of that. -/
def aliasesOfX : List Call :=
  [.change (.createTop ⟨0⟩ {}), .change (.createContext ⟨0, 0⟩ {}),
    .change (.declare ⟨1, 0⟩ "x" {} .function),
    .change (.declare ⟨1, 0⟩ "x" {} (.alias (some ⟨0, 0⟩))),
    .change (.declare ⟨1, 0⟩ "x" {} (.alias (some ⟨1, 0⟩))),
    .change (.declare ⟨1, 0⟩ "x" {} (.alias none)),
    .change (.declare ⟨1, 0⟩ "x" {} (.alias (some ⟨4, 0⟩))),
    .change (.declare ⟨1, 0⟩ "x" {} (.namespaceAlias { path := ["N"] })),
    .change (.declare ⟨1, 0⟩ "x" {} (.alias (some ⟨5, 0⟩)))]

/-- Of the seven entries of the index the function is answered, once. -/
theorem found_clean_aliases :
    let w := (empty {}).run aliasesOfX
    w.graph.indexed ⟨1, 0⟩ "x" =
        [⟨0, 0⟩, ⟨1, 0⟩, ⟨2, 0⟩, ⟨3, 0⟩, ⟨4, 0⟩, ⟨5, 0⟩, ⟨6, 0⟩] ∧
      (w.ask (·.findDeclarations ⟨1, 0⟩ { path := ["x"] } none none { onlyFunctions := true })).1 =
        [⟨0, 0⟩] ∧
      w.graph.Clean none { onlyFunctions := true } [⟨0, 0⟩] := by
  intro w
  have hfound : (w.ask (·.findDeclarations ⟨1, 0⟩ { path := ["x"] } none none
      { onlyFunctions := true })).1 = [⟨0, 0⟩] := by decide +kernel
  refine ⟨by decide +kernel, hfound, ?_⟩
  rw [← hfound]
  exact (found_clean w ⟨1, 0⟩ { path := ["x"] } "x" none none { onlyFunctions := true }).1

end Workspace

end ScopeGraph
