/-
  File:      ScopeGraph/Proofs/SourceOrder.lean
  Subject:   Children and declarations stand in the order of the source text.

  `insertByStart` puts an item behind all that do not start after it. So a list in
  order stays in order if the item's start is the one it is ordered by: a
  declaration that moves has to be taken out and put in again
  (`Sorted.placeDeclaration`).

  * `Graph.Sorted`: all lists of children and of own declarations are in order;
  * one lemma for each change of lists or starts: contexts and declarations come
    and go, are put into lists and are taken out.
-/
import ScopeGraph.Proofs.NameFlow

namespace ScopeGraph

/-! ## 1. Lists in order -/

namespace Position

theorem not_lt {p q : Position} : ¬ p < q ↔ q ≤ p := by
  show ¬ (p.line < q.line ∨ p.line = q.line ∧ p.column < q.column) ↔
    q.line < p.line ∨ q.line = p.line ∧ q.column ≤ p.column
  omega

theorem le_of_lt {p q : Position} (h : p < q) : p ≤ q := by
  have h : p.line < q.line ∨ p.line = q.line ∧ p.column < q.column := h
  show p.line < q.line ∨ p.line = q.line ∧ p.column ≤ q.column
  omega

theorem le_trans {p q r : Position} (hpq : p ≤ q) (hqr : q ≤ r) : p ≤ r := by
  have hpq : p.line < q.line ∨ p.line = q.line ∧ p.column ≤ q.column := hpq
  have hqr : q.line < r.line ∨ q.line = r.line ∧ q.column ≤ r.column := hqr
  show p.line < r.line ∨ p.line = r.line ∧ p.column ≤ r.column
  omega

end Position

/-- No item of a list starts before one that stands in front of it. -/
def InOrder {α : Type} (startOf : α → Position) (l : List α) : Prop :=
  l.Pairwise fun a b => startOf a ≤ startOf b

section InOrder

variable {α : Type} {startOf startOf' : α → Position} {l l' : List α}

theorem InOrder.sublist (h : InOrder startOf l) (hl : l'.Sublist l) : InOrder startOf l' :=
  List.Pairwise.sublist hl h

theorem InOrder.congr (h : InOrder startOf l) (hs : ∀ a ∈ l, startOf' a = startOf a) :
    InOrder startOf' l := by
  refine List.Pairwise.imp_of_mem (fun {a b} ha hb hab => ?_) h
  rw [hs a ha, hs b hb]
  exact hab

/-- **What is put in by its start stands in order.** -/
theorem InOrder.insertByStart (h : InOrder startOf l) (a : α) :
    InOrder startOf (insertByStart startOf a (startOf a) l) := by
  induction l with
  | nil => exact List.pairwise_singleton _ _
  | cons x rest ih =>
    obtain ⟨hx, hrest⟩ := List.pairwise_cons.mp h
    unfold ScopeGraph.insertByStart
    split
    · next hall =>
      refine List.pairwise_cons.mpr ⟨fun y hy => Position.le_of_lt ?_, h⟩
      exact of_decide_eq_true (List.all_eq_true.mp hall y hy)
    · next hall =>
      -- something in the list does not start after the item, so its first does not
      have hxa : startOf x ≤ startOf a := by
        obtain ⟨y, hy, hnot⟩ : ∃ y ∈ x :: rest, ¬ startOf a < startOf y := by
          by_contra hno
          refine hall (List.all_eq_true.mpr fun y hy => decide_eq_true ?_)
          by_contra hnot
          exact hno ⟨y, hy, hnot⟩
        have hya := Position.not_lt.mp hnot
        rcases List.mem_cons.mp hy with rfl | hy
        · exact hya
        · exact Position.le_trans (hx y hy) hya
      refine List.pairwise_cons.mpr ⟨fun y hy => ?_, ih hrest⟩
      rcases List.mem_cons.mp ((insertByStart_perm startOf a (startOf a) rest).mem_iff.mp hy)
        with rfl | hy
      · exact hxa
      · exact hx y hy

end InOrder

/-! ## 2. Graphs in order -/

/-- What the order of lists takes from a context. -/
def Context.order (data : Context) : Position × List ContextId × List DeclId :=
  (data.range.start, data.children, data.locals.ordered)

namespace Graph

/-- **All children and own declarations stand in the order of their starts.** -/
structure Sorted (g : Graph) : Prop where
  children : ∀ c, InOrder g.startOfContext (g.children c)
  declarations : ∀ c, InOrder g.startOfDeclaration (g.localDeclarations c)

variable {g g' : Graph} {c p : ContextId} {d : DeclId}

/-- Starts are kept by what keeps the start of each context. -/
theorem startOfContext_modifyContext {f : Context → Context}
    (h : ∀ data, (f data).range.start = data.range.start) :
    (g.modifyContext c f).startOfContext = g.startOfContext := by
  funext x
  unfold startOfContext
  rw [map_context?_modifyContext g c h]

namespace Sorted

/-- Lists that only lose items stay in order, as long as what is left of them
    starts where it did. -/
theorem thin (h : g.Sorted) (hchildren : ∀ x, (g'.children x).Sublist (g.children x))
    (hdeclarations : ∀ x, (g'.localDeclarations x).Sublist (g.localDeclarations x))
    (hcontext : ∀ x, ∀ y ∈ g'.children x, g'.startOfContext y = g.startOfContext y)
    (hdeclaration : ∀ x, ∀ y ∈ g'.localDeclarations x,
      g'.startOfDeclaration y = g.startOfDeclaration y) : g'.Sorted where
  children x := ((h.children x).sublist (hchildren x)).congr (hcontext x)
  declarations x := ((h.declarations x).sublist (hdeclarations x)).congr (hdeclaration x)

/-- The order depends on lists and starts. -/
theorem congr (h : g.Sorted)
    (hc : ∀ x, (g'.context? x).map Context.order = (g.context? x).map Context.order)
    (hd : ∀ x, (g'.declaration? x).map (·.range.start) = (g.declaration? x).map (·.range.start)) :
    g'.Sorted := by
  have hview : ∀ {α : Type} (v : Position × List ContextId × List DeclId → α) x,
      (g'.context? x).map (v ∘ Context.order) = (g.context? x).map (v ∘ Context.order) := by
    intro α v x
    rw [← Option.map_map, hc, Option.map_map]
  refine h.thin (fun x => ?_) (fun x => ?_) (fun _ x _ => ?_) fun _ x _ => ?_
  · have hx : g'.children x = g.children x := congrArg (Option.getD · []) (hview (·.2.1) x)
    rw [hx]
  · have hx : g'.localDeclarations x = g.localDeclarations x :=
      congrArg (Option.getD · []) (hview (·.2.2) x)
    rw [hx]
  · exact congrArg (Option.getD · {}) (hview (·.1) x)
  · exact congrArg (Option.getD · {}) (hd x)

/-- **Other lists for one context**, in order by the starts as they are. -/
theorem modifyContext (h : g.Sorted) {f : Context → Context}
    (hstart : ∀ data, (f data).range.start = data.range.start)
    (hchildren : ∀ data, g.context? c = some data → InOrder g.startOfContext data.children →
      InOrder g.startOfContext (f data).children)
    (hdeclarations : ∀ data, g.context? c = some data →
      InOrder g.startOfDeclaration data.locals.ordered →
      InOrder g.startOfDeclaration (f data).locals.ordered) : (g.modifyContext c f).Sorted := by
  have hget : ∀ {α : Type} (v : Context → α) x, ((g.modifyContext c f).context? x).map v =
      if x = c then ((g.context? c).map f).map v else (g.context? x).map v := by
    intro α v x
    rw [context?_modifyContext]
    split
    · next hx => rw [hx]
    · rfl
  refine ⟨fun x => ?_, fun x => ?_⟩
  · have hx := h.children x
    rw [startOfContext_modifyContext hstart]
    unfold Graph.children at hx ⊢
    rw [hget]
    split
    · next e =>
      subst e
      cases hc : g.context? x with
      | none => exact List.Pairwise.nil
      | some data =>
        rw [hc] at hx
        exact hchildren data hc hx
    · exact hx
  · have hx := h.declarations x
    show InOrder g.startOfDeclaration _
    unfold localDeclarations at hx ⊢
    rw [hget]
    split
    · next e =>
      subst e
      cases hc : g.context? x with
      | none => exact List.Pairwise.nil
      | some data =>
        rw [hc] at hx
        exact hdeclarations data hc hx
    · exact hx

/-! ## 3. Lists change -/

theorem modifyAll (h : g.Sorted) {f : Locals → Locals} (hf : ∀ l, (f l).ordered = l.ordered)
    (cs : List ContextId) : (g.modifyAll f cs).Sorted := by
  refine h.congr (map_context?_modifyAll (fun data => ?_) cs) fun x => ?_
  · unfold Context.order
    rw [hf]
  · unfold declaration?
    rw [declarations_modifyAll]

theorem spreadNames (h : g.Sorted) (c : ContextId) (names : List (Ident × DeclId)) :
    (g.spreadNames c names).Sorted := h.modifyAll (Locals.ordered_addNames names) _

theorem recallNames (h : g.Sorted) (c : ContextId) (names : List (Ident × DeclId)) :
    (g.recallNames c names).Sorted := h.modifyAll (Locals.ordered_dropNames names) _

theorem shareWithParent (h : g.Sorted) (c : ContextId) : (g.shareWithParent c).Sorted := by
  unfold Graph.shareWithParent
  split
  · exact h.spreadNames _ _
  · exact h

theorem withdrawFromParent (h : g.Sorted) (c : ContextId) : (g.withdrawFromParent c).Sorted := by
  unfold Graph.withdrawFromParent
  split
  · exact h.recallNames _ _
  · exact h

theorem modifyDeclaration (h : g.Sorted) {f : Declaration → Declaration}
    (hf : ∀ data, (f data).range.start = data.range.start) : (g.modifyDeclaration d f).Sorted :=
  h.congr (fun _ => rfl) (map_declaration?_modifyDeclaration g d hf)

theorem attach (h : g.Sorted) (c : ContextId) (d : DeclId) : (g.attach c d).Sorted := by
  unfold Graph.attach
  cases hd : g.declaration? d with
  | none => exact h
  | some data =>
    have hstart : data.range.start = g.startOfDeclaration d := by
      unfold startOfDeclaration
      rw [hd]
      rfl
    refine spreadNames ?_ c _
    refine h.modifyContext (fun _ => rfl) (fun _ _ => id) fun holder _ hordered => ?_
    rw [hstart]
    exact hordered.insertByStart d

theorem detach (h : g.Sorted) (c : ContextId) (d : DeclId) : (g.detach c d).Sorted := by
  unfold Graph.detach
  split
  · refine recallNames ?_ c _
    refine h.modifyContext (fun _ => rfl) (fun _ _ => id) fun holder _ hordered => ?_
    exact hordered.sublist List.erase_sublist
  · exact h

theorem unlinkChild (h : g.Sorted) (p c : ContextId) : (g.unlinkChild p c).Sorted := by
  have hcut := (h.withdrawFromParent c).modifyContext (c := p)
    (f := fun data => { data with children := data.children.filter (· ≠ c) }) (fun _ => rfl)
    (fun data _ hchildren => hchildren.sublist List.filter_sublist) fun _ _ => id
  refine hcut.modifyContext (fun data => ?_) (fun data _ hchildren => ?_) fun data _ hordered => ?_
  · split <;> rfl
  · split <;> exact hchildren
  · split <;> exact hordered

theorem linkChild (h : g.Sorted) (p c : ContextId) : (g.linkChild p c).Sorted := by
  have hput := h.modifyContext (c := p) (f := fun data => { data with
      children := insertByStart g.startOfContext c (g.startOfContext c) data.children })
    (fun _ => rfl) (fun data _ hchildren => hchildren.insertByStart c) fun _ _ => id
  refine shareWithParent ?_ c
  exact hput.modifyContext (fun _ => rfl) (fun _ _ => id) fun _ _ => id

/-- A declaration that is in no list may start elsewhere. -/
theorem modifyLoose (h : g.Sorted) (hfree : ∀ x, d ∉ g.localDeclarations x)
    (f : Declaration → Declaration) : (g.modifyDeclaration d f).Sorted := by
  refine h.thin (fun _ => .refl _) (fun _ => .refl _) (fun _ _ _ => rfl) fun x y hy => ?_
  have hne : y ≠ d := by
    rintro rfl
    exact hfree x hy
  unfold startOfDeclaration
  rw [declaration?_modifyDeclaration, if_neg hne]

/-- **A declaration that starts elsewhere is taken out of its list and put in
    again**: in no other list does its start count. -/
theorem placeDeclaration (h : g.Sorted) (hh : g.outline.Holds) {data : Declaration}
    (hd : g.declaration? d = some data) (hc : data.context = some c) (range : Span) :
    let g₁ := g.modifyDeclaration d ({ · with range := range })
    (g₁.modifyLocals c fun l => if d ∈ l.ordered then
      (l.displace d).place g₁.startOfDeclaration d range.start else l).Sorted := by
  intro g₁
  have hform : g.outline.declaration d = some data.form := outline_declaration.mpr ⟨data, hd, rfl⟩
  obtain ⟨_, hfc, hmem⟩ := hh.holder hform hc
  obtain ⟨holder, hholder, rfl⟩ := outline_context.mp hfc
  let gOut := g.modifyLocals c (·.displace d)
  let gMoved := gOut.modifyDeclaration d ({ · with range := range })
  have hout : gOut.Sorted := h.modifyContext (fun _ => rfl) (fun _ _ => id) fun _ _ hordered =>
    hordered.sublist List.erase_sublist
  have houtline : gOut.outline = g.outline.modify c fun f => { f with own := f.own.erase d } :=
    outline_modifyContext fun _ => rfl
  have hfree : ∀ x, d ∉ gOut.localDeclarations x := by
    intro x hx
    obtain ⟨f, hf, hown⟩ := mem_localDeclarations_iff.mp hx
    rw [houtline] at hf
    obtain ⟨f₀, hf₀, rfl⟩ := Outline.of_modify hf
    by_cases hxc : x = c
    · rw [if_pos hxc] at hown
      exact (hh.nodup hf₀).notMem_erase hown
    · rw [if_neg hxc] at hown
      obtain ⟨fd, hfd, hx'⟩ := hh.own hf₀ hown
      cases hform.symm.trans hfd
      exact hxc (Option.some.inj (hx'.symm.trans hc))
  have hmoved : gMoved.Sorted := hout.modifyLoose hfree _
  have hd' : gOut.declaration? d = some data := hd
  have hstart : gMoved.startOfDeclaration d = range.start := by
    unfold startOfDeclaration
    rw [declaration?_modifyDeclaration, if_pos rfl, hd']
    rfl
  have hput : (gMoved.modifyLocals c fun l => l.place gMoved.startOfDeclaration d range.start).Sorted := by
    refine hmoved.modifyContext (fun _ => rfl) (fun _ _ => id) fun _ _ hordered => ?_
    rw [← hstart]
    exact hordered.insertByStart d
  refine hput.congr (fun x => ?_) fun _ => rfl
  unfold modifyLocals
  rw [context?_modifyContext, context?_modifyContext]
  by_cases hx : x = c
  · subst hx
    have hget : g₁.context? x = some holder := hholder
    have hgetMoved : gMoved.context? x = some { holder with locals := holder.locals.displace d } := by
      refine (context?_modifyContext g x x _).trans ?_
      rw [if_pos rfl, hholder]
      rfl
    rw [if_pos rfl, if_pos rfl, hget, hgetMoved]
    simp only [Option.map_some, if_pos (Multiset.mem_coe.mp hmem)]
    rfl
  · have hgetMoved : gMoved.context? x = g₁.context? x :=
      (context?_modifyContext g c x _).trans (if_neg hx)
    rw [if_neg hx, if_neg hx, hgetMoved]

/-! ## 4. Nodes go -/

/-- A context that is nobody's child goes. -/
theorem eraseContext (h : g.Sorted) (hfree : ∀ x, c ∉ g.children x) :
    ({ g with contexts := g.contexts.erase c } : Graph).Sorted := by
  have hget : ∀ x, ({ g with contexts := g.contexts.erase c } : Graph).context? x =
      if x = c then none else g.context? x := Store.get?_erase g.contexts c
  have hchildren : ∀ x, (({ g with contexts := g.contexts.erase c } : Graph).children x).Sublist
      (g.children x) := by
    intro x
    unfold Graph.children
    rw [hget]
    split
    · exact List.nil_sublist _
    · exact .refl _
  refine h.thin hchildren (fun x => ?_) (fun x y hy => ?_) fun _ _ _ => rfl
  · unfold localDeclarations
    rw [hget]
    split
    · exact List.nil_sublist _
    · exact .refl _
  · have hne : y ≠ c := by
      rintro rfl
      exact hfree x ((hchildren x).subset hy)
    unfold startOfContext
    rw [hget, if_neg hne]

/-- A declaration that is in no list goes. -/
theorem eraseDeclaration (h : g.Sorted) (hfree : ∀ x, d ∉ g.localDeclarations x) :
    ({ g with declarations := g.declarations.erase d } : Graph).Sorted := by
  refine h.thin (fun _ => .refl _) (fun _ => .refl _) (fun _ _ _ => rfl) fun x y hy => ?_
  have hne : y ≠ d := by
    rintro rfl
    exact hfree x hy
  unfold startOfDeclaration declaration?
  rw [Store.get?_erase, if_neg hne]

end Sorted

end Graph

end ScopeGraph
