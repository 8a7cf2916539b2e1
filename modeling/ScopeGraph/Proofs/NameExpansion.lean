/-
  File:      ScopeGraph/Proofs/NameExpansion.lean
  Subject:   What the expansion makes of names.

  A namespace alias that a file can see stands for the path it names, and a
  namespace import adds the paths of what it imports. Putting the target of one
  in front of the rest of a name is one step of the name (`Graph.ExpandsTo`). The
  expansion takes such steps offset after offset, and within each target once more
  from the target's own length on. However the rounds are nested, and also where
  the depth cuts them off, nothing but such steps happens to a name.

  * `Graph.expanded_expandRounds`, `Graph.expanded_expandUnder`: rounds at any
    offset and any depth take steps only;
  * `Graph.kept_expandRounds`: a name for which no alias stands goes through all
    rounds;
  * `Graph.made_expandRounds`: what an offset makes of a name comes out of the rounds;
  * `Workspace.expandNames_by_steps`: all this after every sequence of calls.
-/
import ScopeGraph.Proofs.ExpansionRounds
import ScopeGraph.Proofs.MemoFree

namespace ScopeGraph

open Query Relation

namespace Graph

variable {g : Graph}

/-! ## 1. One step -/

/-- A declaration is there, in a file itself or in one to which imports lead. -/
def Accessible (g : Graph) (top : TopId) (d : DeclId) : Prop :=
  ∃ data c other, g.declaration? d = some data ∧ data.context = some c ∧
    g.topOf? c = some other ∧ (other = top ∨ g.TopPath top other)

/-- Under a path an accessible declaration is registered that stands for a namespace
    alias with this target. -/
def AliasUnder (g : Graph) (top : TopId) (key : Path) (target : QualName) : Prop :=
  ∃ d ∈ g.table.findDeclarations key, g.Accessible top d ∧
    ∃ e data, g.resolveAlias d = .ok e ∧ g.declaration? e = some data ∧
      data.kind = .namespaceAlias target

/-- The first `offset + 1` segments of a name can be a namespace: something comes after
    them, or the name as a whole can be one. -/
def Renamable (whole : Bool) (offset : Nat) (name : Path) : Prop :=
  offset + 1 < name.length ∨ whole = true ∧ offset + 1 ≤ name.length

/-- One step of a name: what an import inside its first segments adds in front of the
    rest, or what an alias registered as its first segments puts in their place. -/
inductive ExpandsTo (g : Graph) (top : TopId) (whole : Bool) (name : Path) : Path → Prop
  | imported {offset : Nat} {target : QualName}
      (h : g.AliasUnder top (name.take offset ++ [.globalImport]) target)
      (htarget : target.path ≠ []) (hlength : offset < name.length) :
      ExpandsTo g top whole name (target.path ++ name.drop offset)
  | renamed {offset : Nat} {target : QualName}
      (h : g.AliasUnder top (name.take (offset + 1)) target)
      (htarget : target.path ≠ []) (hlength : Renamable whole offset name) :
      ExpandsTo g top whole name (target.path ++ name.drop (offset + 1))

theorem renamable_iff {whole : Bool} {offset : Nat} {name : Path} :
    Renamable whole offset name ↔ ¬ name.length ≤ if whole then offset else offset + 1 := by
  unfold Renamable
  cases whole with
  | false => simp
  | true => simp; omega

theorem Sees.accessible {top : TopId} {position : Option Position} {d : DeclId}
    (h : g.Sees top position d) : g.Accessible top d := by
  obtain ⟨data, c, other, hd, hc, hother, hseen⟩ := h
  refine ⟨data, c, other, hd, hc, hother, ?_⟩
  rcases hseen with ⟨hown, _⟩ | ⟨_, hpath⟩
  · exact .inl hown
  · exact .inr hpath

/-- From a position a file sees a namespace alias under a path. -/
def SeesAlias (g : Graph) (top : TopId) (position : Option Position) (key : Path)
    (a : TableAlias) : Prop :=
  ∃ d ∈ g.table.findDeclarations key, ∃ e, g.Finds top position {} d e ∧ g.aliasOf? e = some a

theorem SeesAlias.aliasUnder {top : TopId} {position : Option Position} {key : Path}
    {a : TableAlias} (h : g.SeesAlias top position key a) : g.AliasUnder top key a.target := by
  obtain ⟨d, hd, e, ⟨hsees, hres, _⟩, ha⟩ := h
  obtain ⟨data, hdata, ha⟩ := Option.bind_eq_some_iff.mp ha
  obtain ⟨target, htarget, rfl⟩ := Option.map_eq_some_iff.mp ha
  refine ⟨d, hd, hsees.accessible, e, data, hres, hdata, ?_⟩
  cases hkind : data.kind with
  | namespaceAlias other =>
    rw [hkind] at htarget
    cases htarget
    rfl
  | _ =>
    rw [hkind] at htarget
    cases htarget

/-! ## 2. The expansion takes steps only -/

/-- An expansion makes of a target in front of a rest what steps make of it. -/
def OnlyExpands (g : Graph) (top : TopId) (whole : Bool) (expand : Expansion) : Prop :=
  ∀ target rest start, Yields g.Coherent
    (fun ps => ∀ p ∈ ps, ReflTransGen (g.ExpandsTo top whole) (target.path ++ rest) p)
    (expand target rest start)

section Stepping

variable {top : TopId} (htop : g.IsTop top)

include htop

theorem seesAlias_tableAliases (position : Option Position) (key : Path) :
    Yields g.Coherent (fun found => ∀ a ∈ found, g.SeesAlias top position key a)
      (g.tableAliases top position key) := by
  have hchecked : Yields g.Coherent
      (fun es => ∀ e ∈ es, ∃ d ∈ g.table.findDeclarations key, g.Finds top position {} d e)
      (g.checkDeclarations top position {} (g.table.findDeclarations key)) :=
    yields_gatherM_all _ fun d hd => (yields_finds (yields_topPath htop) position {} d).mono
      fun es hes e he => ⟨d, hd, hes e he⟩
  refine hchecked.bind fun es hes => yields_pure fun a ha => ?_
  obtain ⟨e, he, ha⟩ := List.mem_filterMap.mp ha
  obtain ⟨d, hd, hfinds⟩ := hes e he
  exact ⟨d, hd, e, hfinds, ha⟩

/-- The aliases found under a path are registered there and accessible. -/
theorem aliasUnder_tableAliases (position : Option Position) (key : Path) :
    Yields g.Coherent (fun found => ∀ a ∈ found, g.AliasUnder top key a.target)
      (g.tableAliases top position key) :=
  (seesAlias_tableAliases htop position key).mono fun _ hfound a ha => (hfound a ha).aliasUnder

omit htop in
/-- What becomes of the targets of aliases, if each of them is a step of the name. -/
theorem expanded_targets {whole : Bool} {expand : Expansion}
    (hexpand : g.OnlyExpands top whole expand) {name rest : Path} {found : List TableAlias}
    (warning : Warning)
    (hfound : ∀ a ∈ found, a.target.path ≠ [] →
      g.ExpandsTo top whole name (a.target.path ++ rest)) :
    Yields g.Coherent (fun ps => ∀ p ∈ ps, ReflTransGen (g.ExpandsTo top whole) name p)
      (gatherM (fun a => do
        if a.target.isEmpty then
          Query.warn warning
          return []
        else expand a.target rest a.range.start) found) := by
  refine yields_gatherM_all found fun a ha => ?_
  split
  · exact (yields_warn _).bind fun _ _ => yields_pure fun p hp => absurd hp List.not_mem_nil
  · next htarget =>
    have hstep := hfound a ha (by simpa [QualName.isEmpty] using htarget)
    exact (hexpand _ _ _).mono fun ps hps p hp => (hps p hp).head hstep

variable {whole : Bool} {expand : Expansion} (hexpand : g.OnlyExpands top whole expand)

include hexpand

theorem expanded_importExpansions (position : Option Position) (offset : Nat) (name : Path) :
    Yields g.Coherent (fun ps => ∀ p ∈ ps, ReflTransGen (g.ExpandsTo top whole) name p)
      (g.importExpansions top position offset expand name) := by
  unfold importExpansions
  split
  · exact yields_pure fun p hp => absurd hp List.not_mem_nil
  · next hlength =>
    refine (aliasUnder_tableAliases htop position _).bind fun found hfound => ?_
    refine expanded_targets hexpand _ fun a ha htarget => ?_
    exact .imported (hfound a ha) htarget (Nat.not_le.mp hlength)

theorem expanded_aliasExpansions (position : Option Position) (offset : Nat) (name : Path) :
    Yields g.Coherent
      (fun renamed => ∀ ps, renamed = some ps →
        ∀ p ∈ ps, ReflTransGen (g.ExpandsTo top whole) name p)
      (g.aliasExpansions top position whole offset expand name) := by
  have hnothing : ∀ ps : List Path, none = some ps →
      ∀ p ∈ ps, ReflTransGen (g.ExpandsTo top whole) name p := fun ps hps => by cases hps
  unfold aliasExpansions
  by_cases hlong : Renamable whole offset name
  · rw [if_neg (renamable_iff.mp hlong)]
    refine (aliasUnder_tableAliases htop position _).bind fun found hfound => ?_
    dsimp only
    split
    · exact yields_pure hnothing
    · have hseen : ∀ a ∈ found.filter fun a => !isAfter a.range.stop position,
          a.target.path ≠ [] →
            g.ExpandsTo top whole name (a.target.path ++ name.drop (offset + 1)) :=
        fun a ha htarget => .renamed (hfound a (List.mem_of_mem_filter ha)) htarget hlong
      refine (expanded_targets hexpand _ hseen).bind fun ps hps => yields_pure fun ps' hps' => ?_
      cases hps'
      exact hps
  · rw [renamable_iff, not_not] at hlong
    rw [if_pos hlong]
    exact yields_pure hnothing

/-- One round on one name takes steps only. -/
theorem expanded_expandName (position : Option Position) (offset : Nat) (name : Path) :
    Yields g.Coherent (fun ps => ∀ p ∈ ps, ReflTransGen (g.ExpandsTo top whole) name p)
      (g.expandName top position whole offset expand name) := by
  refine (expanded_importExpansions htop hexpand position offset name).bind
    fun imported himported => ?_
  refine (expanded_aliasExpansions htop hexpand position offset name).bind
    fun renamed hrenamed => ?_
  cases renamed with
  | none =>
    refine yields_pure fun p hp => ?_
    rcases List.mem_append.mp hp with hp | hp
    · exact himported p hp
    · rw [List.mem_singleton.mp hp]
  | some ps =>
    refine yields_pure fun p hp => ?_
    rcases List.mem_append.mp hp with hp | hp
    · exact himported p hp
    · exact hrenamed ps rfl p hp

omit hexpand

/-- **Rounds take steps only**, if the expansion under the names does. -/
theorem expanded_expandRounds {expand : Nat → Expansion}
    (hexpand : ∀ offset, g.OnlyExpands top whole (expand offset))
    (position : Option Position) (n offset : Nat) (names : List Path) :
    Yields g.Coherent
      (fun ps => ∀ p ∈ ps, ∃ name ∈ names, ReflTransGen (g.ExpandsTo top whole) name p)
      (g.expandRounds top position whole expand n offset names) := by
  have hround : ∀ offset ps,
      (∀ p ∈ ps, ∃ name ∈ names, ReflTransGen (g.ExpandsTo top whole) name p) →
      Yields g.Coherent
        (fun more => ∀ p ∈ more.eraseDups,
          ∃ name ∈ names, ReflTransGen (g.ExpandsTo top whole) name p)
        (gatherM (g.expandName top position whole offset (expand offset)) ps) := by
    intro offset ps hps
    -- what a round makes of a name is made of the one that the name comes from
    have hmade := yields_gatherM_all ps fun between hbetween =>
      (expanded_expandName htop (hexpand offset) position offset between).mono
        fun more hmore p hp => by
          obtain ⟨name, hname, hfirst⟩ := hps between hbetween
          exact (⟨name, hname, hfirst.trans (hmore p hp)⟩ :
            ∃ x ∈ names, ReflTransGen (g.ExpandsTo top whole) x p)
    exact hmade.mono fun more hmore p hp => hmore p (List.mem_eraseDups.mp hp)
  exact yields_rounds (fun ps hps p hp => hps p (List.mem_eraseDups.mp hp)) hround n offset
    fun p hp => ⟨p, hp, .refl⟩

/-- **The expansion under a target takes steps only**, at any depth and also where the depth
    cuts it off. -/
theorem expanded_expandUnder (depth offset : Nat) :
    g.OnlyExpands top whole (g.expandUnder top whole depth offset) := by
  induction depth generalizing offset with
  | zero =>
    intro target rest start
    refine (yields_warn _).bind fun _ _ => yields_pure fun p hp => ?_
    rw [List.mem_singleton.mp hp]
  | succ n ih =>
    intro target rest start
    refine (expanded_expandRounds htop ih _ _ _ _).mono fun ps hps p hp => ?_
    obtain ⟨name, hname, h⟩ := hps p hp
    rwa [List.mem_singleton.mp hname] at h

end Stepping

/-! ## 3. Names that stay -/

/-- No alias stands for the first `offset + 1` segments of a name. -/
def Untouched (g : Graph) (top : TopId) (whole : Bool) (offset : Nat) (name : Path) : Prop :=
  Renamable whole offset name → ∀ target, ¬ g.AliasUnder top (name.take (offset + 1)) target

/-- Nothing is registered as the first segments of a name. -/
theorem untouched_of_unregistered {top : TopId} {whole : Bool} {name : Path}
    (h : ∀ o < name.length, g.table.findDeclarations (name.take (o + 1)) = []) (offset : Nat) :
    g.Untouched top whole offset name := by
  intro hlong target hunder
  obtain ⟨d, hd, _⟩ := hunder
  unfold Renamable at hlong
  rw [h offset (by omega)] at hd
  cases hd

section Staying

variable {top : TopId} {whole : Bool}

/-- A name that no alias stands for is among what one round makes of it. -/
theorem kept_expandName (htop : g.IsTop top) {expand : Expansion}
    (hexpand : ∀ target rest start, Keeps g.Coherent (expand target rest start))
    (position : Option Position) {offset : Nat} {name : Path}
    (hname : g.Untouched top whole offset name) :
    Yields g.Coherent (name ∈ ·) (g.expandName top position whole offset expand name) := by
  have haliases : Yields g.Coherent (· = none)
      (g.aliasExpansions top position whole offset expand name) := by
    unfold aliasExpansions
    by_cases hlong : Renamable whole offset name
    · rw [if_neg (renamable_iff.mp hlong)]
      refine (aliasUnder_tableAliases htop position _).bind fun found hfound => ?_
      have hnone : found = [] := List.eq_nil_iff_forall_not_mem.mpr fun a ha =>
        hname hlong a.target (hfound a ha)
      rw [hnone]
      exact yields_pure rfl
    · rw [renamable_iff, not_not] at hlong
      rw [if_pos hlong]
      exact yields_pure rfl
  refine Yields.bind (keeps_importExpansions keeps_hopTowards hexpand _ _ _ _) fun imported _ => ?_
  refine haliases.bind fun renamed hrenamed => ?_
  rw [hrenamed]
  exact yields_pure (List.mem_append_right imported List.mem_cons_self)

variable {expand : Nat → Expansion}
  (hexpand : ∀ offset target rest start, Keeps g.Coherent (expand offset target rest start))

include hexpand

/-- **A name that no alias stands for goes through all rounds.** -/
theorem kept_expandRounds (htop : g.IsTop top) (position : Option Position) {name : Path}
    (hname : ∀ offset, g.Untouched top whole offset name) (n offset : Nat) {names : List Path}
    (hmem : name ∈ names) :
    Yields g.Coherent (name ∈ ·) (g.expandRounds top position whole expand n offset names) := by
  have hdone : ∀ ps : List Path, name ∈ ps → name ∈ ps.eraseDups :=
    fun ps hps => List.mem_eraseDups.mpr hps
  refine yields_rounds hdone (fun offset ps hps => ?_) n offset hmem
  have hround := yields_mem_gatherM
    (keeps_expandName keeps_hopTowards (hexpand offset) top position whole offset) hps
    (kept_expandName htop (hexpand offset) position (hname offset))
  exact hround.mono hdone

/-- No name comes out of rounds twice. -/
theorem nodup_expandRounds (position : Option Position) (n offset : Nat) (names : List Path) :
    Yields g.Coherent List.Nodup
      (g.expandRounds top position whole expand n offset names) :=
  yields_rounds (I := fun _ => True) (fun ps _ => nodup_eraseDups ps)
    (fun offset ps _ => keeps_gatherM
      (keeps_expandName keeps_hopTowards (hexpand offset) top position whole offset) ps)
    n offset trivial

end Staying

/-! ## 4. Names that are made -/

/-- One step of a name by what a file sees from a position, at an offset. -/
inductive ExpandsAt (g : Graph) (top : TopId) (position : Option Position) (whole : Bool)
    (offset : Nat) (name : Path) : Path → Prop
  | imported {a : TableAlias}
      (h : g.SeesAlias top position (name.take offset ++ [.globalImport]) a)
      (htarget : a.target.path ≠ []) (hlength : offset < name.length) :
      ExpandsAt g top position whole offset name (a.target.path ++ name.drop offset)
  | renamed {a : TableAlias} (h : g.SeesAlias top position (name.take (offset + 1)) a)
      (hbefore : ∀ p, position = some p → a.range.stop ≤ p)
      (htarget : a.target.path ≠ []) (hlength : Renamable whole offset name) :
      ExpandsAt g top position whole offset name (a.target.path ++ name.drop (offset + 1))

variable {top : TopId} {position : Option Position} {whole : Bool}

theorem SeesAlias.length_le {key : Path} {a : TableAlias} (h : g.SeesAlias top position key a) :
    key.length ≤ g.table.longestKey := by
  by_contra hlong
  obtain ⟨d, hd, _⟩ := h
  rw [g.table.findDeclarations_of_longer (Nat.not_le.mp hlong)] at hd
  cases hd

/-- What is seen at an offset is registered under a path longer than the offset, and the name
    is longer than it too. -/
theorem ExpandsAt.offset_lt {offset : Nat} {name p : Path}
    (h : g.ExpandsAt top position whole offset name p) :
    offset < g.table.longestKey ∧ offset < name.length := by
  cases h with
  | imported h _ hlength =>
    have hkey := h.length_le
    rw [List.length_append, List.length_take, List.length_singleton] at hkey
    omega
  | renamed h _ _ hlength =>
    have hkey := h.length_le
    rw [List.length_take] at hkey
    unfold Renamable at hlength
    omega

section Making

variable (htop : g.IsTop top)

include htop

/-- The expansion under a target keeps a name that no alias stands for. -/
theorem kept_expandUnder (depth offset : Nat) {target : QualName} {rest : Path}
    (hname : ∀ o, g.Untouched top whole o (target.path ++ rest)) (start : Position) :
    Yields g.Coherent (target.path ++ rest ∈ ·)
      (g.expandUnder top whole depth offset target rest start) := by
  cases depth with
  | zero => exact (yields_warn _).bind fun _ _ => yields_pure List.mem_cons_self
  | succ n =>
    exact kept_expandRounds (keeps_expandUnder keeps_hopTowards top whole n) htop _ hname _ _
      List.mem_cons_self

/-- The target of an alias among others comes out in front of the rest. -/
theorem made_targets (depth offset : Nat) (warning : Warning) {rest : Path}
    {found : List TableAlias} {a : TableAlias} (ha : a ∈ found) (htarget : a.target.path ≠ [])
    (hname : ∀ o, g.Untouched top whole o (a.target.path ++ rest)) :
    Yields g.Coherent (a.target.path ++ rest ∈ ·)
      (gatherM (fun a => do
        if a.target.isEmpty then
          Query.warn warning
          return []
        else g.expandUnder top whole depth offset a.target rest a.range.start) found) := by
  refine yields_mem_gatherM (fun x => ?_) ha ?_
  · split
    · exact (yields_warn _).keeps.bind fun _ => keeps_pure []
    · exact keeps_expandUnder keeps_hopTowards _ _ _ _ _ _ _
  · rw [if_neg (by simpa [QualName.isEmpty] using htarget)]
    exact kept_expandUnder htop depth offset hname a.range.start

variable (hdepth : g.tops.length ≤ g.limits.importDepth)

include hdepth

theorem mem_tableAliases {key : Path} {a : TableAlias} (ha : g.SeesAlias top position key a) :
    Yields g.Coherent (a ∈ ·) (g.tableAliases top position key) := by
  obtain ⟨d, hd, e, hfinds, ha⟩ := ha
  have hchecked := yields_gatherM (g.table.findDeclarations key) fun d _ =>
    yields_checkDeclaration (informed_of_depth hdepth htop) position {} d
  refine hchecked.bind fun es hes => yields_pure ?_
  exact List.mem_filterMap.mpr ⟨e, (hes e).mpr ⟨d, hd, hfinds⟩, ha⟩

/-- A round makes of a name what its offset makes of it, if no alias stands for that. -/
theorem made_expandName (depth : Nat) {offset : Nat} {name p : Path}
    (h : g.ExpandsAt top position whole offset name p) (hp : ∀ o, g.Untouched top whole o p) :
    Yields g.Coherent (p ∈ ·)
      (g.expandName top position whole offset (g.expandUnder top whole depth offset) name) := by
  have hunder := keeps_expandUnder (g := g) keeps_hopTowards top whole depth offset
  cases h with
  | @imported a h htarget hlength =>
    have himports : Yields g.Coherent (a.target.path ++ name.drop offset ∈ ·)
        (g.importExpansions top position offset (g.expandUnder top whole depth offset) name) := by
      unfold importExpansions
      rw [if_neg (Nat.not_le.mpr hlength)]
      exact (mem_tableAliases htop hdepth h).bind fun found hfound =>
        made_targets htop depth offset _ hfound htarget hp
    refine himports.bind fun imported himported => ?_
    refine Yields.bind (keeps_aliasExpansions keeps_hopTowards hunder _ _ _ _ _) fun renamed _ => ?_
    cases renamed <;> exact yields_pure (List.mem_append_left _ himported)
  | @renamed a h hbefore htarget hlength =>
    have haliases : Yields g.Coherent
        (fun renamed => ∃ ps, renamed = some ps ∧ a.target.path ++ name.drop (offset + 1) ∈ ps)
        (g.aliasExpansions top position whole offset (g.expandUnder top whole depth offset)
          name) := by
      unfold aliasExpansions
      rw [if_neg (renamable_iff.mp hlength)]
      refine (mem_tableAliases htop hdepth h).bind fun found hfound => ?_
      have hseen : a ∈ found.filter fun a => !isAfter a.range.stop position := by
        refine List.mem_filter.mpr ⟨hfound, ?_⟩
        rw [isAfter_eq_false.mpr hbefore]
        rfl
      dsimp only
      rw [if_neg (by simpa using List.ne_nil_of_mem hseen)]
      exact (made_targets htop depth offset _ hseen htarget hp).bind fun ps hps =>
        yields_pure ⟨ps, rfl, hps⟩
    refine Yields.bind (keeps_importExpansions keeps_hopTowards hunder _ _ _ _) fun imported _ => ?_
    refine haliases.bind fun renamed hrenamed => ?_
    obtain ⟨ps, rfl, hps⟩ := hrenamed
    exact yields_pure (List.mem_append_right imported hps)

/-- **What an offset makes of a name comes out of the rounds**, if no alias stands for the name
    at an offset before, and none for what is made of it. -/
theorem made_expandRounds (depth : Nat) {offset : Nat} {name p : Path}
    (h : g.ExpandsAt top position whole offset name p) (hp : ∀ o, g.Untouched top whole o p)
    (hname : ∀ o < offset, g.Untouched top whole o name) {k n start : Nat}
    (hk : start + k = offset) (hn : k < n) {names : List Path} (hmem : name ∈ names) :
    Yields g.Coherent (p ∈ ·) (g.expandRounds top position whole (g.expandUnder top whole depth)
      n start names) := by
  have hunder := keeps_expandUnder (g := g) keeps_hopTowards top whole depth
  -- the name is longer than the offset, so none of these rounds is the last one
  have hlong : ∀ names : List Path, name ∈ names → ∀ o ≤ offset,
      ¬ (names.all fun q => q.length ≤ o) = true := by
    intro names hmem o ho hall
    have hshort : name.length ≤ o := by simpa using List.all_eq_true.mp hall name hmem
    have hlength := h.offset_lt.2
    omega
  induction k generalizing n start names with
  | zero =>
    rw [Nat.add_zero] at hk
    subst hk
    obtain ⟨n, rfl⟩ : ∃ n', n = n' + 1 := ⟨n - 1, by omega⟩
    unfold expandRounds
    rw [if_neg (hlong names hmem _ (Nat.le_refl _))]
    have hround := yields_mem_gatherM
      (keeps_expandName keeps_hopTowards (hunder _) top position whole _) hmem
      (made_expandName htop hdepth depth h hp)
    exact hround.bind fun more hmore =>
      kept_expandRounds hunder htop position hp _ _ (List.mem_eraseDups.mpr hmore)
  | succ k ih =>
    obtain ⟨n, rfl⟩ : ∃ n', n = n' + 1 := ⟨n - 1, by omega⟩
    unfold expandRounds
    rw [if_neg (hlong names hmem start (by omega))]
    have hround := yields_mem_gatherM
      (keeps_expandName keeps_hopTowards (hunder start) top position whole start) hmem
      (kept_expandName htop (hunder start) position (hname start (by omega)))
    exact hround.bind fun more hmore => ih (by omega) (by omega) (List.mem_eraseDups.mpr hmore)

end Making

end Graph

/-! ## 5. After every sequence of calls -/

namespace Workspace

open ScopeGraph.Graph

/-- Two registered files of which the first imports the second. The second one has the alias
    `K` for the namespace `N`. The first one has `H` for this `K`, `F` for `N::M`, and imports
    all of `N`. -/
def aliasesAcross : List Call :=
  [.change (.createTop ⟨0⟩ (.lines 0 90)), .change (.createTop ⟨1⟩ (.lines 0 90)),
    .change (.addImport ⟨0, 0⟩ ⟨1, 0⟩ none),
    .change (.declare ⟨1, 0⟩ "K" (.lines 1 2) (.namespaceAlias { path := ["N"] })),
    .change (.declare ⟨0, 0⟩ "H" (.lines 1 2) (.alias (some ⟨0, 0⟩))),
    .change (.declare ⟨0, 0⟩ "F" (.lines 3 4) (.namespaceAlias { path := ["N", "M"] })),
    .change (.declare ⟨0, 0⟩ .globalImport (.lines 5 6) (.namespaceAlias { path := ["N"] })),
    .change (.register ⟨⟨0, 0⟩⟩), .change (.register ⟨⟨1, 0⟩⟩)]

/-- **The expansion of names takes steps, and does no more.** Every name that comes out is
    made of one that went in by steps, and none comes out twice. A name for which no alias
    stands comes out as it is; so does what a visible alias or import makes of a name, if no
    alias stands for that and none for the name before. -/
theorem expandNames_by_steps (limits : Limits) (calls : List Call)
    (hfrees : (empty limits).FewFrees calls) (top : TopId)
    (htop : ((empty limits).run calls).graph.IsTop top) (position : Option Position)
    (whole : Bool) (names : List Path) :
    let w := (empty limits).run calls
    let found := (w.ask (·.expandNames top position whole names)).1
    (∀ p ∈ found, ∃ name ∈ names, ReflTransGen (w.graph.ExpandsTo top whole) name p) ∧
      found.Nodup ∧
      (∀ name ∈ names, (∀ offset, w.graph.Untouched top whole offset name) → name ∈ found) ∧
      (w.graph.tops.length ≤ w.graph.limits.importDepth →
        ∀ name ∈ names, ∀ offset p, w.graph.ExpandsAt top position whole offset name p →
          (∀ o < offset, w.graph.Untouched top whole o name) →
          (∀ o, w.graph.Untouched top whole o p) → p ∈ found) := by
  intro w found
  have hcoherent : w.graph.Coherent w.memo := (faithful_run hfrees).coherent
  have hunder : ∀ offset target rest start, Keeps w.graph.Coherent
      (w.graph.expandUnder top whole w.graph.limits.aliasDepth offset target rest start) :=
    keeps_expandUnder keeps_hopTowards top whole _
  have hsteps : ∀ offset, w.graph.OnlyExpands top whole
      (w.graph.expandUnder top whole w.graph.limits.aliasDepth offset) :=
    expanded_expandUnder htop _
  refine ⟨(expanded_expandRounds htop hsteps position _ 0 names _ hcoherent).1,
    (nodup_expandRounds hunder position _ 0 names _ hcoherent).1, fun name hmem hname => ?_,
    fun hdepth name hmem offset p h hname hp => ?_⟩
  · exact (kept_expandRounds hunder htop position hname _ 0 hmem _ hcoherent).1
  · exact (made_expandRounds htop hdepth _ h hp hname (Nat.zero_add offset) h.offset_lt.1 hmem _
      hcoherent).1

/-- `H::x` and `F::x` are replaced, `G::x` stays, and to each of them the import adds a name. -/
theorem expandNames_by_steps_across :
    let w := (empty { importDepth := 2 }).run aliasesAcross
    let names : List Path := [["H", "x"], ["F", "x"], ["G", "x"]]
    let found := (w.ask (·.expandNames ⟨⟨0, 0⟩⟩ (some ⟨9, 0⟩) false names)).1
    found = [["N", "H", "x"], ["N", "x"], ["N", "F", "x"], ["N", "M", "x"], ["N", "G", "x"],
        ["G", "x"]] ∧
      (∃ name ∈ names, ReflTransGen (w.graph.ExpandsTo ⟨⟨0, 0⟩⟩ false) name ["N", "x"]) ∧
      (∀ offset, w.graph.Untouched ⟨⟨0, 0⟩⟩ false offset ["G", "x"]) ∧ ["G", "x"] ∈ found ∧
      w.graph.ExpandsAt ⟨⟨0, 0⟩⟩ (some ⟨9, 0⟩) false 0 ["F", "x"] ["N", "M", "x"] ∧
      ["N", "M", "x"] ∈ found := by
  intro w names found
  have hfrees : (empty { importDepth := 2 }).FewFrees aliasesAcross :=
    fewFrees_of_length (by decide)
  have htop : w.graph.IsTop ⟨⟨0, 0⟩⟩ := by decide +kernel
  have hdepth : w.graph.tops.length ≤ w.graph.limits.importDepth := by decide +kernel
  obtain ⟨hsteps, _, hkept, hmade⟩ := expandNames_by_steps { importDepth := 2 } aliasesAcross
    hfrees ⟨⟨0, 0⟩⟩ htop (some ⟨9, 0⟩) false names
  have hplain : ∀ offset, w.graph.Untouched ⟨⟨0, 0⟩⟩ false offset ["G", "x"] :=
    untouched_of_unregistered (by decide +kernel)
  have hfinds : w.graph.Finds ⟨⟨0, 0⟩⟩ (some ⟨9, 0⟩) {} ⟨2, 0⟩ ⟨2, 0⟩ :=
    ((yields_checkDeclaration (informed_of_depth hdepth htop) _ {} _ _
      (faithful_run hfrees).coherent).1 _).mp (by decide +kernel)
  have hrenamed : w.graph.ExpandsAt ⟨⟨0, 0⟩⟩ (some ⟨9, 0⟩) false 0 ["F", "x"] ["N", "M", "x"] := by
    refine .renamed (a := ⟨{ path := ["N", "M"] }, .lines 3 4⟩) ?_ ?_ (by decide) (.inl (by decide))
    · exact ⟨⟨2, 0⟩, by decide +kernel, ⟨2, 0⟩, hfinds, by decide +kernel⟩
    · intro p hp
      cases hp
      decide
  refine ⟨by decide +kernel, hsteps _ (by decide +kernel), hplain,
    hkept _ (by decide) hplain, hrenamed, ?_⟩
  exact hmade hdepth _ (by decide) 0 _ hrenamed (fun o ho => absurd ho (Nat.not_lt_zero o))
    (untouched_of_unregistered (by decide +kernel))

end Workspace

end ScopeGraph
