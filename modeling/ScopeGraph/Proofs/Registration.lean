/-
  File:      ScopeGraph/Proofs/Registration.lean
  Subject:   After every sequence of calls, the symbol table holds what the graph says
             it should hold.

  A new context gets a handle that no other context has as its parent
  (`Graph.Anchored`: parents, also those that are gone, are handles that were given
  out), so nothing moves below it unasked. All other edits uphold what is in order.

  * `Change.settled`: one change keeps tree, registration and table in order;
  * `Workspace.table_exact`: the table after every sequence of calls.
-/
import ScopeGraph.Proofs.Runs
import ScopeGraph.Proofs.Teardown

namespace ScopeGraph

/-! ## 1. One context more -/

namespace Outline

/-- The outline with one more context. -/
def insert (o : Outline) (c : ContextId) (f : Form) : Outline :=
  { o with context := fun x => if x = c then some f else o.context x }

/-- A form that a new context may have: it has no children, holds nothing and is
    not registered, and it has a parent only if it is anonymous. -/
structure Fresh (o : Outline) (f : Form) : Prop where
  children : f.children = 0
  own : f.own = 0
  registered : f.registered = false
  parent : ∀ p, f.parent = some p → f.anonymous = true ∧ (o.context p).isSome
  top : f.isTop = true → f.parent = none ∧ f.anonymous = false

variable {o : Outline} {c : ContextId} {f : Form}

theorem insert_self : (o.insert c f).context c = some f := if_pos rfl

theorem insert_of_ne {x : ContextId} (hx : x ≠ c) : (o.insert c f).context x = o.context x :=
  if_neg hx

theorem parent?_insert_of_ne {x : ContextId} (hx : x ≠ c) :
    (o.insert c f).parent? x = o.parent? x := by
  unfold parent?
  rw [insert_of_ne hx]

/-- A chain comes to a context only by way of a parent. -/
theorem Line.not_mem {x : ContextId} {l : List ContextId} (h : o.Line x l) (hx : x ≠ c)
    (hc : ∀ y, o.parent? y ≠ some c) : c ∉ l := by
  induction h with
  | root => exact fun hmem => hx (List.mem_singleton.mp hmem).symm
  | @step x p l hs _ ih =>
    intro hmem
    rcases List.mem_cons.mp hmem with e | hmem
    · exact hx e.symm
    · exact ih (fun e => hc x (e ▸ hs)) hmem

variable (hf : o.Fresh f) (hdead : o.context c = none) (hc : ∀ y, o.parent? y ≠ some c)

include hdead in
theorem ne_of_live {x : ContextId} {fx : Form} (hx : o.context x = some fx) : x ≠ c := by
  rintro rfl
  rw [hdead] at hx
  cases hx

include hf in
theorem child_of_insert {y z : ContextId} (h : (o.insert c f).Child y z) : o.Child y z := by
  obtain ⟨fy, hfy, hmem⟩ := h
  by_cases hyc : y = c
  · subst hyc
    cases insert_self.symm.trans hfy
    rw [hf.children] at hmem
    exact absurd hmem (Multiset.notMem_zero _)
  · exact ⟨fy, (insert_of_ne hyc).symm.trans hfy, hmem⟩

include hf hdead in
theorem Listed.insert (hl : o.Listed) : (o.insert c f).Listed := by
  intro y z fy hy hz
  by_cases hyc : y = c
  · subst hyc
    cases insert_self.symm.trans hy
    rw [hf.children] at hz
    exact absurd hz (Multiset.notMem_zero _)
  · obtain ⟨fz, hfz, hchild⟩ := hl y z fy ((insert_of_ne hyc).symm.trans hy) hz
    exact ⟨fz, (insert_of_ne (ne_of_live hdead hfz)).trans hfz, hchild⟩

include hf hdead in
theorem Matched.insert (hm : o.Matched) : (o.insert c f).Matched where
  listed := hm.listed.insert hf hdead
  parent := by
    intro z q fz hz hanon hparent
    by_cases hzc : z = c
    · subst hzc
      cases insert_self.symm.trans hz
      rw [(hf.parent q hparent).1] at hanon
      cases hanon
    · obtain ⟨fq, hfq, hmem⟩ := hm.parent ((insert_of_ne hzc).symm.trans hz) hanon hparent
      exact ⟨fq, (insert_of_ne (ne_of_live hdead hfq)).trans hfq, hmem⟩
  nodup := by
    intro y fy hy
    by_cases hyc : y = c
    · subst hyc
      cases insert_self.symm.trans hy
      rw [hf.children]
      exact Multiset.nodup_zero
    · exact hm.nodup ((insert_of_ne hyc).symm.trans hy)

include hf hdead hc in
theorem Tree.insert (ht : o.Tree) : (o.insert c f).Tree := by
  refine (ht.matched.insert hf hdead).tree fun x => ?_
  have hnew : ∃ l, (o.insert c f).Line c l := by
    have hparent : (o.insert c f).parent? c = f.parent := parent?_of_context insert_self
    cases hp : f.parent with
    | none => exact ⟨[c], .root (hparent.trans hp)⟩
    | some p =>
      obtain ⟨fp, hfp⟩ := Option.isSome_iff_exists.mp (hf.parent p hp).2
      obtain ⟨l, hl⟩ := ht.line p
      have hnot := hl.not_mem (ne_of_live hdead hfp) hc
      refine ⟨c :: l, .step (hparent.trans hp) (hl.congr fun y hy => ?_)⟩
      exact parent?_insert_of_ne fun e => hnot (e ▸ hy)
  obtain ⟨l, hl⟩ := ht.line x
  exact hl.reroute (fun y hy => parent?_insert_of_ne hy) hnew

include hf in
theorem Rooted.insert (hr : o.Rooted) : (o.insert c f).Rooted := by
  intro x fx hx htop
  by_cases hxc : x = c
  · subst hxc
    cases insert_self.symm.trans hx
    exact hf.top htop
  · exact hr x fx ((insert_of_ne hxc).symm.trans hx) htop

include hf hc in
theorem Flagged.insert (hg : o.Flagged) : (o.insert c f).Flagged where
  inherit := by
    intro x p fx fp hx hanon hparent hp
    by_cases hxc : x = c
    · subst hxc
      cases insert_self.symm.trans hx
      rw [(hf.parent p hparent).1] at hanon
      cases hanon
    · have hx' : o.context x = some fx := (insert_of_ne hxc).symm.trans hx
      have hpc : p ≠ c := by
        rintro rfl
        exact hc x ((parent?_of_context hx').trans hparent)
      exact hg.inherit hx' hanon hparent ((insert_of_ne hpc).symm.trans hp)
  anonymous := by
    intro x fx hx hanon
    by_cases hxc : x = c
    · subst hxc
      cases insert_self.symm.trans hx
      exact hf.registered
    · exact hg.anonymous ((insert_of_ne hxc).symm.trans hx) hanon

include hf hdead in
theorem Holds.insert (hh : o.Holds) : (o.insert c f).Holds where
  own := by
    intro x fx d hx hmem
    by_cases hxc : x = c
    · subst hxc
      cases insert_self.symm.trans hx
      rw [hf.own] at hmem
      exact absurd hmem (Multiset.notMem_zero _)
    · exact hh.own ((insert_of_ne hxc).symm.trans hx) hmem
  holder := by
    intro d fd x hd hx
    obtain ⟨fx, hfx, hmem⟩ := hh.holder hd hx
    exact ⟨fx, (insert_of_ne (ne_of_live hdead hfx)).trans hfx, hmem⟩
  nodup := by
    intro x fx hx
    by_cases hxc : x = c
    · subst hxc
      cases insert_self.symm.trans hx
      rw [hf.own]
      exact Multiset.nodup_zero
    · exact hh.nodup ((insert_of_ne hxc).symm.trans hx)

end Outline

namespace Graph

/-- Parents are handles that were given out. -/
def Anchored (g : Graph) : Prop := ∀ x p, g.outline.parent? x = some p → g.contexts.Issued p

/-- Handles of contexts that are there were given out. -/
theorem issued_of_live {g : Graph} {x : ContextId} (h : (g.outline.context x).isSome) :
    g.contexts.Issued x := by
  obtain ⟨f, hf⟩ := Option.isSome_iff_exists.mp h
  obtain ⟨data, hdata, _⟩ := outline_context.mp hf
  exact Store.issued_of_get? hdata

theorem Anchored.descend {g g' : Graph} (ha : g.Anchored)
    (h : Outline.Descends g.outline g'.outline)
    (hissued : ∀ x, g.contexts.Issued x → g'.contexts.Issued x) : g'.Anchored := by
  intro x p hp
  rcases h.parent x p hp with hp | hp
  · exact hissued p (ha x p hp)
  · exact hissued p (issued_of_live hp)

/-- The graph with one more context. -/
def insertContext (g : Graph) (made : Context) : Graph :=
  { g with contexts := (g.contexts.insert made).2 }

/-- The handle that one more context gets. -/
def nextContext (g : Graph) (made : Context) : ContextId := (g.contexts.insert made).1

section Insert

open Outline

variable {g : Graph} (made : Context) (htidy : g.contexts.Tidy)

include htidy

theorem context?_insertContext (x : ContextId) : (g.insertContext made).context? x =
    if x = g.nextContext made then some made else g.context? x :=
  Store.get?_insert htidy made x

theorem context?_nextContext : g.context? (g.nextContext made) = none :=
  Store.get?_insert_new htidy made

theorem outline_nextContext : g.outline.context (g.nextContext made) = none :=
  Option.map_eq_none_iff.mpr (context?_nextContext made htidy)

theorem outline_insertContext :
    (g.insertContext made).outline = g.outline.insert (g.nextContext made) made.form := by
  unfold outline Outline.insert
  congr 1
  funext x
  rw [context?_insertContext made htidy]
  split <;> rfl

theorem sameEntries_insertContext (hkey : made.key = none) : SameEntries g (g.insertContext made) := by
  refine .of_held (funext fun x => ?_) rfl rfl .rfl
  unfold heldContext
  rw [context?_insertContext made htidy]
  split
  · next hx =>
    rw [hx, context?_nextContext made htidy]
    exact hkey
  · rfl

variable (ha : g.Anchored)

include ha

/-- Nothing is below a context that is not there yet. -/
theorem Anchored.ne_nextContext (y : ContextId) :
    g.outline.parent? y ≠ some (g.nextContext made) :=
  fun hy => Store.not_issued_insert htidy made (ha y _ hy)

theorem scopePath_insertContext (ht : g.outline.Tree) {x : ContextId} (hx : x ≠ g.nextContext made) :
    (g.insertContext made).scopePath x = g.scopePath x := by
  obtain ⟨l, hl⟩ := ht.line x
  refine scopePath_of_agree hl fun y hy => .of_eq ?_
  have hne : y ≠ g.nextContext made := fun e => hl.not_mem hx (ha.ne_nextContext made htidy) (e ▸ hy)
  rw [outline_insertContext made htidy, insert_of_ne hne]

/-- The new context belongs nowhere, and all others belong where they did. -/
theorem current_insertContext (hg : g.Orderly) (hkey : made.key = none)
    (hregistered : made.form.registered = false) : (g.insertContext made).Current := by
  have hentries := sameEntries_insertContext made htidy hkey
  refine ⟨fun x => ?_, fun d => ?_⟩
  · unfold CurrentContext
    rw [hentries.contexts]
    by_cases hx : x = g.nextContext made
    · have hnone : (g.insertContext made).contextKey? x = none := by
        rw [contextKey?_eq, outline_insertContext made htidy, hx, insert_self]
        simp [hregistered]
      unfold heldContext
      rw [hnone, hx, context?_nextContext made htidy]
      rfl
    · have hsame : (g.insertContext made).contextKey? x = g.contextKey? x := by
        refine contextKey?_congr ?_ fun _ _ _ => scopePath_insertContext made htidy ha hg.tree hx
        rw [outline_insertContext made htidy, insert_of_ne hx]
      exact (hg.current.contexts x).trans hsame.symm
  · have hsame : (g.insertContext made).declarationKey? d = g.declarationKey? d := by
      refine declarationKey?_congr rfl fun fd c hd hc => ?_
      obtain ⟨fc, hfc, _⟩ := hg.holds.holder hd hc
      have hne := ne_of_live (outline_nextContext made htidy) hfc
      refine ⟨?_, fun _ => scopePath_insertContext made htidy ha hg.tree hne⟩
      rw [registers_eq, registers_eq, outline_insertContext made htidy, insert_of_ne hne]
    exact (hg.current.declarations d).trans hsame.symm

theorem Consistent.insertContext (hg : g.Consistent) (hf : g.outline.Fresh made.form)
    (hkey : made.key = none) : (g.insertContext made).Consistent := by
  have hdead := outline_nextContext made htidy
  have houtline := outline_insertContext made htidy
  refine ⟨?_, ?_, (sameEntries_insertContext made htidy hkey).entered hg.entered⟩
  · rw [houtline]
    exact hg.tree.insert hf hdead (ha.ne_nextContext made htidy)
  · rw [houtline]
    exact hg.holds.insert hf hdead

theorem Anchored.insertContext (hf : g.outline.Fresh made.form) : (g.insertContext made).Anchored := by
  intro x p hp
  rw [outline_insertContext made htidy] at hp
  refine Store.Issued.insert ?_ htidy made
  by_cases hx : x = g.nextContext made
  · rw [hx, parent?_of_context insert_self] at hp
    exact issued_of_live (hf.parent p hp).2
  · rw [parent?_insert_of_ne hx] at hp
    exact ha x p hp

end Insert

end Graph

namespace Workspace

open ScopeGraph.Graph Outline

/-- **Tree, registration and table are in order, and parents were given out.** -/
structure Settled (w : Workspace) : Prop where
  orderly : w.graph.Orderly
  anchored : w.graph.Anchored

theorem settled_newContext {w : Workspace} (made : Context) (hw : w.Settled)
    (htidy : w.graph.contexts.Tidy) (hf : w.graph.outline.Fresh made.form) (hkey : made.key = none) :
    ((Edit.newContext made).after w).Settled := by
  obtain ⟨hg, ha⟩ := hw
  have houtline := outline_insertContext made htidy
  have hconsistent := hg.toConsistent.insertContext made htidy ha hf hkey
  have hrooted : (w.graph.insertContext made).outline.Rooted := by
    rw [houtline]
    exact hg.rooted.insert hf
  have hflagged : (w.graph.insertContext made).outline.Flagged := by
    rw [houtline]
    exact hg.flagged.insert hf (ha.ne_nextContext made htidy)
  exact ⟨⟨hconsistent, hrooted, hflagged, current_insertContext made htidy ha hg hkey hf.registered⟩,
    ha.insertContext made htidy hf⟩

theorem Upheld.settled {w w' : Workspace} (h : Upheld w w') (hw : w.graph.Anchored)
    (hissued : ∀ x, w.graph.contexts.Issued x → w'.graph.contexts.Issued x) : w'.Settled :=
  ⟨h.orderly, hw.descend h.descends hissued⟩

end Workspace

/-! ## 2. Changes -/

namespace Edit

open Workspace ScopeGraph.Graph Outline

variable {w : Workspace}

theorem settled_createTop (file : FileId) (range : Span) (hw : w.Settled)
    (htidy : w.graph.contexts.Tidy) : ((createTop file range).after w).Settled :=
  settled_newContext { range := range, kind := .global, file := some (.new file) } hw htidy
    ⟨rfl, rfl, rfl, nofun, fun _ => ⟨rfl, rfl⟩⟩ rfl

theorem settled_createAnonymous (p : ContextId) (range : Span) (hw : w.Settled)
    (htidy : w.graph.contexts.Tidy) : ((createAnonymous p range).after w).Settled := by
  unfold createAnonymous after
  rw [needContext_bind]
  cases hp : w.graph.context? p with
  | none => exact hw
  | some parent =>
    refine settled_newContext { range := range, parent := some p, anonymous := true } hw
      htidy ⟨rfl, rfl, rfl, fun q hq => ⟨rfl, ?_⟩, nofun⟩ rfl
    cases hq
    exact Option.isSome_iff_exists.mpr ⟨_, outline_context.mpr ⟨parent, hp, rfl⟩⟩

theorem createContext_after {p : ContextId} {parent : Context}
    (hp : w.graph.context? p = some parent) (range : Span) :
    (createContext p range).after w =
      (addChild p (w.graph.nextContext { range := range })).after
        ((newContext { range := range }).after w) := by
  let n := w.graph.nextContext { range := range }
  have hneed : (createContext p range).after w = (addChild p n >>= fun _ => pure n).after
      ((newContext { range := range }).after w) := by
    unfold createContext
    rw [after, needContext_bind, hp]
    rfl
  rw [hneed, after_bind]
  unfold after
  cases addChild p n _ <;> rfl

theorem issued_addChild (p c : ContextId) (w : Workspace) (x : ContextId)
    (hx : w.graph.contexts.Issued x) : ((addChild p c).after w).graph.contexts.Issued x := by
  have hlinks : SameLinks w ((addChild p c).after w) := sameLinks_addChild p c w
  refine (Store.issued_map Context.links _ x).mp ?_
  show ((addChild p c).after w).graph.links.Issued x
  rw [hlinks.links]
  exact (Store.issued_map Context.links _ x).mpr hx

/-- A new context below a parent is made below nothing and then moved there. -/
theorem settled_createContext (p : ContextId) (range : Span) (hw : w.Settled)
    (htidy : w.graph.contexts.Tidy) : ((createContext p range).after w).Settled := by
  cases hp : w.graph.context? p with
  | none =>
    unfold createContext after
    rw [needContext_bind, hp]
    exact hw
  | some parent =>
    rw [createContext_after hp]
    have hw₁ := settled_newContext { range := range } hw htidy
      ⟨rfl, rfl, rfl, nofun, nofun⟩ rfl
    let n := w.graph.nextContext { range := range }
    let w₁ := (newContext { range := range }).after w
    have htop : w₁.graph.top? n = none := by
      have hget : w₁.graph.context? n = some { range := range } :=
        (Store.get?_insert htidy _ n).trans (if_pos rfl)
      unfold top?
      rw [hget]
      rfl
    exact (upholds_addChild (p := p) htop hw₁.orderly).settled hw₁.anchored
      (issued_addChild p n w₁)

end Edit

namespace Change

open Workspace

/-- The changes that make a context. -/
def makesContext : Change → Bool
  | .createTop .. | .createContext .. | .createAnonymous .. => true
  | _ => false

/-- **Every other change upholds the order**, unless it puts a top below another
    context. -/
theorem upholds {e : Change} (h : e.makesContext = false) {w : Workspace}
    (hnest : w.nestsTop (.change e) = false) : Upholds w (e.apply w) := by
  by_cases hbeside : e.isBeside = true
  · exact (beside hbeside w).sameRegistry.upholds
  cases e with
  | createTop | createContext | createAnonymous => cases h
  | addChild p c =>
    exact Edit.upholds_addChild (Option.not_isSome_iff_eq_none.mp (Bool.eq_false_iff.mp hnest))
  | removeChild p c => exact Edit.upholds_removeChild p c w
  | setKind c kind => exact Edit.upholds_setKind c kind w
  | setScopeName c name => exact Edit.upholds_setScopeName c name w
  | setPropagates c on => exact (Edit.sameRegistry_setPropagates c on w).upholds
  | declare c name range kind => exact Edit.upholds_declare c name range kind w
  | addDeclaration c d => exact Edit.upholds_addDeclaration c d w
  | removeDeclaration c d => exact Edit.upholds_removeDeclaration c d w
  | setDeclarationContext d c => exact Edit.upholds_setDeclarationContext d c w
  | rename d name => exact Edit.upholds_rename d name w
  | setRange d range => exact (Edit.sameRegistry_setRange d range w).upholds
  | register t => exact Edit.upholds_registerTop t true w
  | unregister t => exact Edit.upholds_registerTop t false w
  | deleteDeclaration d => exact Edit.upholds_deleteDeclaration d w
  | clearDeclarations c => exact Edit.upholds_clearDeclarations c w
  | deleteContext c => exact Edit.upholds_deleteContext c w
  | clean c keep => exact Edit.upholds_clean c keep w
  | _ => exact absurd rfl hbeside

/-- **One change keeps tree, registration and table in order.** -/
theorem settled (e : Change) {w : Workspace} (hw : w.Faithful) (hages : w.Ages (e.apply w))
    (hnest : w.nestsTop (.change e) = false) (h : w.Settled) : (e.apply w).Settled := by
  by_cases hmake : e.makesContext = true
  · have htidy := hw.linked.tidy
    cases e with
    | createTop file range => exact Edit.settled_createTop file range h htidy
    | createContext p range => exact Edit.settled_createContext p range h htidy
    | createAnonymous p range => exact Edit.settled_createAnonymous p range h htidy
    | _ => cases hmake
  · have hup := upholds (Bool.eq_false_iff.mpr hmake) hnest h.orderly
    exact hup.settled h.anchored fun x hx => (e.evolves hw.linked.toWired).issued hages hx

end Change

/-! ## 3. Sequences of calls -/

namespace Workspace

theorem settled_empty (limits : Limits) : (empty limits).Settled where
  orderly :=
    { tree := ⟨nofun, nofun, nofun, fun x => ⟨[x], .root rfl⟩⟩
      rooted := nofun
      holds := ⟨nofun, nofun, nofun⟩
      entered :=
        { contexts := ⟨List.nodup_nil, fun _ => List.nodup_nil, fun _ _ => ⟨nofun, nofun⟩⟩
          declarations := ⟨List.nodup_nil, fun _ => List.nodup_nil, fun _ _ => ⟨nofun, nofun⟩⟩
          tidy := Store.tidy_empty }
      flagged := ⟨nofun, nofun⟩
      current := ⟨fun _ => rfl, fun _ => rfl⟩ }
  anchored := nofun

theorem settled_run {limits : Limits} {calls : List Call} (hfrees : (empty limits).FewFrees calls)
    (hnest : (empty limits).NestsNoTop calls) : ((empty limits).run calls).Settled := by
  refine (run_invariant (I := fun w calls => w.Settled ∧ w.NestsNoTop calls) ?_ calls _
    (faithful_empty limits) hfrees.lasts ⟨settled_empty limits, hnest⟩).2.1
  intro w call rest hw hages ⟨hsettled, hnest, hrest⟩
  refine ⟨?_, hrest⟩
  cases call with
  | change e => exact e.settled hw hages hnest hsettled
  | question q =>
    have hgraph := (q.keeps (fun s t => Graph.keeps_hopTowards s t) hw.coherent).2
    exact ⟨hgraph ▸ hsettled.orderly, hgraph ▸ hsettled.anchored⟩

end Workspace

/-! ## 4. The table -/

namespace Graph

variable {g : Graph}

/-- A declaration belongs into the table under a path: it is in a registered
    file, namespace or class, and the path is its own. -/
def DeclaredUnder (g : Graph) (k : Path) (d : DeclId) : Prop :=
  ∃ data c holder, g.declaration? d = some data ∧ data.context = some c ∧
    g.context? c = some holder ∧ holder.registered = true ∧
    holder.kind ∈ [.global, .nameSpace, .classBody] ∧ g.pathOf data = k

/-- A context belongs into the table under a path: it is registered, it is not
    anonymous and has a scope name, and the path is its own. -/
def ScopedUnder (g : Graph) (k : Path) (c : ContextId) : Prop :=
  ∃ data, g.context? c = some data ∧ data.anonymous = false ∧ data.registered = true ∧
    data.scopeName.isEmpty = false ∧ g.scopePath c = k

theorem registersDeclarations_iff (kind : ContextKind) :
    kind.registersDeclarations = true ↔ kind ∈ [.global, .nameSpace, .classBody] := by
  cases kind <;> decide

theorem registers_eq_true {c : ContextId} :
    g.registers c = true ↔ ∃ holder, g.context? c = some holder ∧ holder.registered = true ∧
      holder.kind ∈ [.global, .nameSpace, .classBody] := by
  unfold registers
  cases g.context? c <;> simp [registersDeclarations_iff]

theorem declarationKey?_eq_some {d : DeclId} {k : Path} :
    g.declarationKey? d = some k ↔ g.DeclaredUnder k d := by
  unfold declarationKey? DeclaredUnder
  constructor
  · intro h
    split at h
    · next data hd =>
      obtain ⟨hany, hk⟩ := Option.ite_none_right_eq_some.mp h
      obtain ⟨c, hc, hreg⟩ := (Option.any_eq_true _ _).mp hany
      obtain ⟨holder, hholder, hflag, hkind⟩ := registers_eq_true.mp hreg
      exact ⟨data, c, holder, hd, hc, hholder, hflag, hkind, Option.some.inj hk⟩
    · cases h
  · rintro ⟨data, c, holder, hd, hc, hholder, hflag, hkind, rfl⟩
    have hreg : g.registers c = true := registers_eq_true.mpr ⟨holder, hholder, hflag, hkind⟩
    simp [hd, hc, hreg]

theorem contextKey?_eq_some {c : ContextId} {k : Path} :
    g.contextKey? c = some k ↔ g.ScopedUnder k c := by
  unfold contextKey? ScopedUnder
  cases hc : g.context? c with
  | none => simp
  | some data => simp [and_assoc, and_comm, and_left_comm]

/-- Where all is in order, under a path stand the declarations that belong there. -/
theorem Orderly.mem_findDeclarations (h : g.Orderly) (k : Path) (d : DeclId) :
    d ∈ g.table.findDeclarations k ↔ g.DeclaredUnder k d := by
  have hheld := h.entered.declarations.mem k d
  rw [h.current.declarations d] at hheld
  exact hheld.trans declarationKey?_eq_some

/-- Where all is in order, under a path stand the contexts that belong there. -/
theorem Orderly.mem_findContexts (h : g.Orderly) (k : Path) (c : ContextId) :
    c ∈ g.table.findContexts k ↔ g.ScopedUnder k c := by
  have hheld := h.entered.contexts.mem k c
  rw [h.current.contexts c] at hheld
  exact hheld.trans contextKey?_eq_some

end Graph

namespace Workspace

open ScopeGraph.Graph

/-- A registered file with a namespace, a class in it, a member of the class and
    an anonymous context; then the namespace is renamed. -/
def renamedNamespace : List Call :=
  [.change (.createTop ⟨0⟩ {}), .change (.createContext ⟨0, 0⟩ {}),
    .change (.setKind ⟨1, 0⟩ .nameSpace), .change (.setScopeName ⟨1, 0⟩ { path := ["a"] }),
    .change (.createContext ⟨1, 0⟩ {}), .change (.setKind ⟨2, 0⟩ .classBody),
    .change (.setScopeName ⟨2, 0⟩ { path := ["C"] }), .change (.declare ⟨2, 0⟩ "m" {} .ordinary),
    .change (.createAnonymous ⟨2, 0⟩ {}), .change (.register ⟨⟨0, 0⟩⟩),
    .change (.setScopeName ⟨1, 0⟩ { path := ["b"] })]

/-- **The symbol table holds what the graph says it should hold.** Under every
    path stand, each once, the declarations and the contexts that belong there
    now. A context is registered exactly if its parent is, and anonymous
    contexts are not. -/
theorem table_exact (limits : Limits) (calls : List Call)
    (hfrees : (empty limits).FewFrees calls) (hnest : (empty limits).NestsNoTop calls) :
    let g := ((empty limits).run calls).graph
    (∀ k, (g.table.findDeclarations k).Nodup ∧
      ∀ d, d ∈ g.table.findDeclarations k ↔ g.DeclaredUnder k d) ∧
    (∀ k, (g.table.findContexts k).Nodup ∧
      ∀ c, c ∈ g.table.findContexts k ↔ g.ScopedUnder k c) ∧
    (∀ c data, g.context? c = some data → data.anonymous = false →
      ∀ p, data.parent = some p →
        ∃ parent, g.context? p = some parent ∧ data.registered = parent.registered) ∧
    ∀ c data, g.context? c = some data → data.anonymous = true → data.registered = false := by
  intro g
  have h : g.Orderly := (settled_run hfrees hnest).orderly
  refine ⟨fun k => ⟨h.entered.declarations.nodup k, h.mem_findDeclarations k⟩,
    fun k => ⟨h.entered.contexts.nodup k, h.mem_findContexts k⟩, ?_, ?_⟩
  · intro c data hc hanon p hp
    have hform := outline_context.mpr ⟨data, hc, rfl⟩
    obtain ⟨fp, hfp, _⟩ := h.tree.parent hform hanon hp
    obtain ⟨parent, hparent, rfl⟩ := outline_context.mp hfp
    exact ⟨parent, hparent, h.flagged.inherit hform hanon hp hfp⟩
  · intro c data hc hanon
    exact h.flagged.anonymous (outline_context.mpr ⟨data, hc, rfl⟩) hanon

/-- The member of the class is found under the new name of the namespace and not
    under the old one. -/
theorem table_exact_renamed :
    let g := ((empty {}).run renamedNamespace).graph
    g.table.findDeclarations ["b", "C", "m"] = [⟨0, 0⟩] ∧ g.DeclaredUnder ["b", "C", "m"] ⟨0, 0⟩ ∧
      ¬ g.DeclaredUnder ["a", "C", "m"] ⟨0, 0⟩ ∧ g.ScopedUnder ["b", "C"] ⟨2, 0⟩ := by
  have hexact := table_exact {} renamedNamespace (fewFrees_of_length (by decide)) (by decide)
  refine ⟨by decide +kernel, ((hexact.1 _).2 _).mp (by decide +kernel), fun h => ?_,
    ((hexact.2.1 _).2 _).mp (by decide +kernel)⟩
  exact absurd (((hexact.1 _).2 _).mpr h) (by decide +kernel)

end Workspace

end ScopeGraph
