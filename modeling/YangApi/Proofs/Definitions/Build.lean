import Mathlib.Tactic.ByContra
import YangApi.Proofs.Definitions.Growth

/-! Making definitions with shared groupings writes the definitions of sites. The statement for a
level of nodes is proved by induction over levels, under a law for the use of groupings; the use of
groupings obeys the law by induction on how many of them may still be opened. -/

namespace YangApi

open Draft

variable {c : Context} {name : SchemaPath → String} {reach : Site → Prop}
  {pending : List SchemaPath}

theorem Draft.get?_assignPath (d : Draft) (key : SchemaPath) (last : String) :
    (d.assignPath key last).1.names.get? key = some (d.assignPath key last).2 :=
  Registry.get?_assign d.names key _ _

theorem Draft.assignPath_eq {d : Draft} {key : SchemaPath} {n : String}
    (h : d.names.get? key = some n) (last : String) : d.assignPath key last = (d, n) := by
  unfold assignPath assign
  rw [Registry.assign_eq h]

theorem Draft.defineOnce_of_free {d : Draft} {k : String} (h : ¬ d.document.hasDefinition k)
    (build : Draft → Draft × Model) :
    d.defineOnce k build = (build d).1.define k (build d).2 := by
  simp [defineOnce, h]

namespace Shared

/-- What adding the properties of `ns` to a model comes to. -/
structure Fills (c : Context) (name : SchemaPath → String) (reach : Site → Prop)
    (pending : List SchemaPath) (p : Parent) (ns : List (Node Resolved))
    (acc acc' : Draft × Plain) : Prop where
  adds : Adds c name reach pending acc.1 acc'.1
  model : acc'.2 = Site.extend name p acc.2 ns
  settled : ∀ n ∈ ns, ∀ q, n.key? = some q → Settled pending acc'.1 q

/-- What using a grouping comes to: nothing for one that does not exist, else the name of a
definition that is there or under way. -/
structure Uses (c : Context) (name : SchemaPath → String) (reach : Site → Prop)
    (pending : List SchemaPath) (reference owner : String) (d : Draft)
    (r : Draft × Option String) : Prop where
  adds : Adds c name reach pending d r.1
  answer : r.2 = (c.grouping? reference owner).map fun _ => name (GroupingRef.read reference owner).path
  settled : ∀ g, c.grouping? reference owner = some g →
    Settled pending r.1 (GroupingRef.read reference owner).path
  reports : c.grouping? reference owner = none → .missingGrouping reference owner ∈ r.1.warnings

def UseLaw (c : Context) (name : SchemaPath → String) (reach : Site → Prop)
    (pending : List SchemaPath) (use : Use) : Prop :=
  ∀ reference owner d, NamedBy name (use reference owner d).1 →
    (∀ g, c.grouping? reference owner = some g →
      reach (.ofGrouping (.read reference owner) g)) →
    Uses c name reach pending reference owner d (use reference owner d)

def FillLaw (c : Context) (name : SchemaPath → String) (reach : Site → Prop)
    (pending : List SchemaPath) (use : Use) (ns : List (Node Resolved)) : Prop :=
  ∀ p ownOnly inherited acc, NamedBy name (fillAll use p ownOnly inherited acc ns).1 →
    (∀ n ∈ Node.kept ownOnly (Node.flattenAll inherited ns), ∀ i,
      n.interior? = some i → reach i.site) →
    Fills c name reach pending p (Node.kept ownOnly (Node.flattenAll inherited ns)) acc
      (fillAll use p ownOnly inherited acc ns)

theorem Fills.nil (p : Parent) (acc : Draft × Plain) :
    Fills c name reach pending p [] acc acc :=
  ⟨.refl _, rfl, by simp⟩

theorem Fills.append {p : Parent} {ns ms : List (Node Resolved)} {acc acc' acc'' : Draft × Plain}
    (h : Fills c name reach pending p ns acc acc')
    (h' : Fills c name reach pending p ms acc' acc'') :
    Fills c name reach pending p (ns ++ ms) acc acc'' where
  adds := h.adds.trans h'.adds
  model := by rw [h'.model, h.model, Site.extend_append]
  settled n hn q hq := by
    rcases List.mem_append.1 hn with hn | hn
    · exact (h.settled n hn q hq).grow h'.adds.toGrows
    · exact h'.settled n hn q hq

theorem useStep_eq (use : Use) (owner : String) (acc : Draft × List String) (reference : String) :
    useStep use owner acc reference =
      ((use reference owner acc.1).1, acc.2 ++ (use reference owner acc.1).2.toList) := rfl

/-- Using one grouping after the other; the names found before are carried along. -/
theorem foldl_useStep_spec {use : Use} (hu : UseLaw c name reach pending use) {owner : String}
    (uses : List String) (acc : Draft × List String)
    (hnamed : NamedBy name (uses.foldl (useStep use owner) acc).1)
    (hreach : ∀ u ∈ uses, ∀ g, c.grouping? u owner = some g →
      reach (.ofGrouping (.read u owner) g)) :
    Adds c name reach pending acc.1 (uses.foldl (useStep use owner) acc).1 ∧
      (uses.foldl (useStep use owner) acc).2 = acc.2 ++ (uses.filterMap fun u =>
        (c.grouping? u owner).map fun _ => (GroupingRef.read u owner).path).map name ∧
      (∀ u ∈ uses, ∀ g, c.grouping? u owner = some g →
        Settled pending (uses.foldl (useStep use owner) acc).1 (GroupingRef.read u owner).path) ∧
      ∀ u ∈ uses, c.grouping? u owner = none →
        .missingGrouping u owner ∈ (uses.foldl (useStep use owner) acc).1.warnings := by
  induction uses generalizing acc with
  | nil => exact ⟨.refl _, by simp, by simp, by simp⟩
  | cons u us ih =>
    rw [List.foldl_cons, useStep_eq] at hnamed ⊢
    obtain ⟨hadds, hnames, hsettled, hreports⟩ :=
      ih _ hnamed fun v hv => hreach v (List.mem_cons_of_mem _ hv)
    have hfirst : Uses c name reach pending u owner acc.1 (use u owner acc.1) :=
      hu u owner acc.1 (hnamed.shrink hadds.toGrows) (hreach u (List.mem_cons_self ..))
    refine ⟨hfirst.adds.trans hadds, ?_, ?_, ?_⟩
    · rw [hnames, hfirst.answer, List.filterMap_cons]
      cases c.grouping? u owner <;> simp
    · intro v hv g hg
      rcases List.mem_cons.1 hv with rfl | hv
      · exact (hfirst.settled g hg).grow hadds.toGrows
      · exact hsettled v hv g hg
    · intro v hv hnone
      rcases List.mem_cons.1 hv with rfl | hv
      · exact hadds.warnings (hfirst.reports hnone)
      · exact hreports v hv hnone

theorem useAll_spec {use : Use} (hu : UseLaw c name reach pending use) {s : Site} {d : Draft}
    (hnamed : NamedBy name (useAll use s.source.owner s.source.uses d).1)
    (hclosed : Site.Closed c reach) (hs : reach s) :
    Adds c name reach pending d (useAll use s.source.owner s.source.uses d).1 ∧
      (useAll use s.source.owner s.source.uses d).2 = (s.parents c).map name ∧
      (∀ p ∈ s.parents c, Settled pending (useAll use s.source.owner s.source.uses d).1 p) ∧
      Reports c (useAll use s.source.owner s.source.uses d).1 s := by
  obtain ⟨hadds, hnames, hsettled, hreports⟩ :=
    foldl_useStep_spec hu s.source.uses (d, []) hnamed (hclosed.parent s hs)
  refine ⟨hadds, hnames, ?_, hreports⟩
  intro p hp
  obtain ⟨u, hu, g, hg, rfl⟩ := Site.mem_parents.1 hp
  exact hsettled u hu g hg

def below (use : Use) (s : Site) (ownOnly : Bool) (acc : Draft × Plain) : Draft × Plain :=
  fillAll use s.source.parent ownOnly false acc s.children

theorem below_spec {use : Use} {s : Site} (hfill : FillLaw c name reach pending use s.children)
    (hclosed : Site.Closed c reach) (hs : reach s) (d : Draft)
    (hnamed : NamedBy name (below use s (!s.source.uses.isEmpty) (d, {})).1) :
    Fills c name reach pending s.source.parent s.own (d, {})
      (below use s (!s.source.uses.isEmpty) (d, {})) :=
  hfill _ _ _ _ hnamed (hclosed.child s hs)

theorem build_of_isEmpty (use : Use) {s : Source} (h : s.uses.isEmpty)
    (fill : Bool → Draft × Plain → Draft × Plain) (d : Draft) :
    build use s fill d = ((fill false (d, {})).1,
      .plain { (fill false (d, {})).2 with description := s.description }) := by
  simp [build, h]

theorem build_of_uses (use : Use) {s : Source} (h : ¬ s.uses.isEmpty)
    (fill : Bool → Draft × Plain → Draft × Plain) (d : Draft) :
    build use s fill d =
      let used := useAll use s.owner s.uses d
      let own := fill true (used.1, {})
      (own.1,
        if used.2.isEmpty then .plain { own.2 with description := s.description }
        else .composed s.description
          (used.2.map .ref ++ if own.2.isEmpty then [] else [Model.plain own.2]) used.2) := by
  simp only [build, h]
  by_cases hused : (useAll use s.owner s.uses d).2.isEmpty <;> simp [hused]

theorem build_spec {use : Use} (hu : UseLaw c name reach pending use) {s : Site}
    (hfill : FillLaw c name reach pending use s.children) (hclosed : Site.Closed c reach)
    (hs : reach s) (d : Draft) (hnamed : NamedBy name (build use s.source (below use s) d).1) :
    Adds c name reach pending d (build use s.source (below use s) d).1 ∧
      (build use s.source (below use s) d).2 = s.model c name ∧
      (∀ p ∈ s.needs c, Settled pending (build use s.source (below use s) d).1 p) ∧
      Reports c (build use s.source (below use s) d).1 s := by
  have hneeds : ∀ d', (∀ p ∈ s.parents c, Settled pending d' p) →
      (∀ n ∈ s.own, ∀ q, n.key? = some q → Settled pending d' q) →
      ∀ p ∈ s.needs c, Settled pending d' p := by
    intro d' hparents hown p hp
    rcases List.mem_append.1 hp with hp | hp
    · exact hparents p hp
    · obtain ⟨n, hn, hq⟩ := List.mem_filterMap.1 hp
      exact hown n hn p hq
  by_cases hempty : s.source.uses.isEmpty
  · have huses : s.source.uses = [] := List.isEmpty_iff.1 hempty
    have hnil : s.parents c = [] := by simp [Site.parents, huses]
    have hbelow := below_spec hfill hclosed hs d
    rw [hempty, Bool.not_true] at hbelow
    rw [build_of_isEmpty use hempty] at hnamed ⊢
    have h := hbelow hnamed
    refine ⟨h.adds, ?_, hneeds _ (by simp [hnil]) h.settled, by simp [Reports, huses]⟩
    rw [h.model, Site.model, hnil]
    rfl
  · have hbelow := below_spec hfill hclosed hs (useAll use s.source.owner s.source.uses d).1
    rw [Bool.eq_false_iff.2 hempty, Bool.not_false] at hbelow
    rw [build_of_uses use hempty] at hnamed ⊢
    have h := hbelow hnamed
    obtain ⟨hadds, hnames, hsettled, hreports⟩ :=
      useAll_spec hu (hnamed.shrink h.adds.toGrows) hclosed hs
    refine ⟨hadds.trans h.adds, ?_,
      hneeds _ (fun p hp => (hsettled p hp).grow h.adds.toGrows) h.settled,
      hreports.grow h.adds.toGrows⟩
    dsimp only
    rw [hnames, h.model]
    rfl

theorem register_eq (use : Use) (i : Interior) (d : Draft) :
    register use i.head i.site.source (below use i.site) d =
      let e := d.assignPath (key i.head) i.head.name
      (e.1.defineOnce e.2 (build use i.site.source (below use i.site)), e.2) := rfl

theorem register_spec {use : Use} (hu : UseLaw c name reach pending use) {i : Interior}
    (hfill : FillLaw c name reach pending use i.children) (hclosed : Site.Closed c reach)
    (hs : reach i.site) (d : Draft)
    (hnamed : NamedBy name (register use i.head i.site.source (below use i.site) d).1) :
    Adds c name reach pending d (register use i.head i.site.source (below use i.site) d).1 ∧
      (register use i.head i.site.source (below use i.site) d).2 = name (key i.head) ∧
      Settled pending (register use i.head i.site.source (below use i.site) d).1 (key i.head) := by
  rw [register_eq] at hnamed ⊢
  have hkey := d.get?_assignPath (key i.head) i.head.name
  have hassign : Adds c name reach pending d (d.assignPath (key i.head) i.head.name).1 :=
    Adds.assignPath d _ _
  generalize d.assignPath (key i.head) i.head.name = e at hnamed hkey hassign ⊢
  obtain ⟨d', k⟩ := e
  dsimp only at hnamed hkey hassign ⊢
  by_cases hdef : d'.document.hasDefinition k
  · rw [defineOnce, if_pos hdef] at hnamed ⊢
    exact ⟨hassign, (hnamed _ _ hkey).symm, k, hkey, .inl hdef⟩
  · rw [defineOnce_of_free hdef] at hnamed ⊢
    obtain ⟨hadds, hmodel, hneeds, hreports⟩ :=
      build_spec hu (s := i.site) hfill hclosed hs d' hnamed
    have hkey' := hadds.names _ _ hkey
    rw [hmodel]
    refine ⟨hassign.trans (Adds.define (hadds.mono (List.subset_cons_self ..)) hdef hkey' hs
      (fun p hp => (hneeds p hp).mono (List.subset_cons_self ..)) hreports),
      (hnamed _ _ hkey').symm, k, hkey', ?_⟩
    exact .inl (Document.hasDefinition_define _ _ _)

theorem fillAll_cons (use : Use) (p : Parent) (ownOnly inherited : Bool) (acc : Draft × Plain)
    (n : Node Resolved) (ns : List (Node Resolved)) :
    fillAll use p ownOnly inherited acc (n :: ns) =
      fillAll use p ownOnly inherited (fillAll use p ownOnly inherited acc [n]) ns := rfl

theorem fillCases_spec {use : Use} {ks : Cases Resolved}
    (hks : ∀ k ∈ ks, FillLaw c name reach pending use k.2) (p : Parent) (ownOnly inherited : Bool)
    (acc : Draft × Plain) (hnamed : NamedBy name (fillCases use p ownOnly inherited acc ks).1)
    (hreach : ∀ n ∈ Node.kept ownOnly (Node.flattenCases inherited ks), ∀ i,
      n.interior? = some i → reach i.site) :
    Fills c name reach pending p (Node.kept ownOnly (Node.flattenCases inherited ks)) acc
      (fillCases use p ownOnly inherited acc ks) := by
  induction ks generalizing acc with
  | nil => exact .nil p acc
  | cons k ks ih =>
    rw [Node.flattenCases, Node.kept_append, List.forall_mem_append] at hreach
    rw [fillCases] at hnamed ⊢
    rw [Node.flattenCases, Node.kept_append]
    have hrest := ih (fun k' hk' => hks k' (List.mem_cons_of_mem _ hk')) _ hnamed hreach.2
    have hfirst := hks k (List.mem_cons_self ..) p ownOnly inherited acc
      (hnamed.shrink hrest.adds.toGrows) hreach.1
    exact hfirst.append hrest

theorem Fills.single {p : Parent} {n : Node Resolved} (acc : Draft × Plain) (hn : n.key? = none) :
    Fills c name reach pending p [n] acc (acc.1, acc.2.addChild p n none) where
  adds := .refl _
  model := by simp [Site.extend, hn]
  settled m hm q hq := by simp [List.mem_singleton.1 hm, hn] at hq

theorem fillAll_spec {use : Use} (hu : UseLaw c name reach pending use)
    (hclosed : Site.Closed c reach) (ns : List (Node Resolved)) :
    FillLaw c name reach pending use ns := by
  induction ns using Node.levels with
  | nil => exact fun p ownOnly inherited acc _ _ => .nil p acc
  | cons n ns ihn ihns =>
    intro p ownOnly inherited acc hnamed hreach
    rw [Node.flattenAll_cons, Node.kept_append, List.forall_mem_append] at hreach
    rw [Node.flattenAll_cons, Node.kept_append]
    rw [fillAll_cons] at hnamed ⊢
    have hrest := ihns p ownOnly inherited _ hnamed hreach.2
    have hfirst := ihn p ownOnly inherited acc (hnamed.shrink hrest.adds.toGrows) hreach.1
    exact hfirst.append hrest
  | choice r ks ih =>
    intro p ownOnly inherited acc hnamed hreach
    rw [Node.flattenAll_singleton, Node.flatten] at hreach ⊢
    exact fillCases_spec ih p ownOnly _ acc hnamed hreach
  | inner r shape uses cs ih =>
    intro p ownOnly inherited acc hnamed hreach
    simp only [Node.flattenAll_singleton, Node.flatten, Node.head, Node.kept_singleton] at hreach ⊢
    simp only [fillAll, fill] at hnamed ⊢
    by_cases hskip : ownOnly && (inherited || r.grouping.isSome)
    · simp only [hskip, if_true]
      exact .nil p acc
    · rw [Bool.not_eq_true] at hskip
      simp only [hskip, Bool.false_eq_true, if_false] at hnamed hreach ⊢
      obtain ⟨hadds, hname, hsettled⟩ := register_spec hu (i := ⟨r, shape, uses, cs⟩) ih hclosed
        (hreach _ (List.mem_singleton_self _) _ rfl) acc.1 hnamed
      refine ⟨hadds, ?_, ?_⟩
      · rw [Site.extend, List.foldl_cons, List.foldl_nil, Node.key?, Option.map_some, ← hname]
        rfl
      · intro n hn q hq
        simp only [List.mem_singleton.1 hn, Node.key?, Option.some.injEq] at hq
        exact hq ▸ hsettled
  | leaf | leafList | anyxml =>
    intro p ownOnly inherited acc _ _
    simp only [Node.flattenAll_singleton, Node.flatten, Node.kept_singleton, fillAll, fill]
    split
    · exact .nil p acc
    · exact .single acc rfl

theorem useGrouping_none {opens : Nat} {building : List SchemaPath} {reference owner : String}
    {d : Draft} (h : c.grouping? reference owner = none) :
    useGrouping c opens building reference owner d =
      (d.warn (.missingGrouping reference owner), none) := by
  rw [useGrouping, h]

/-- A grouping that is there or under way is only named. -/
theorem useGrouping_named {opens : Nat} {building : List SchemaPath} {reference owner : String}
    {d : Draft} {g : Grouping Resolved} (hg : c.grouping? reference owner = some g)
    (h : (nameOfGrouping d reference owner).1.document.hasDefinition
      (nameOfGrouping d reference owner).2 ∨ (GroupingRef.read reference owner).path ∈ building) :
    useGrouping c opens building reference owner d =
      ((nameOfGrouping d reference owner).1, some (nameOfGrouping d reference owner).2) := by
  rw [useGrouping, hg]
  simp only [Bool.or_eq_true, decide_eq_true_eq, h, if_true]

/-- Any other grouping is built while it counts as under way. -/
theorem useGrouping_opened {opens : Nat} {building : List SchemaPath} {reference owner : String}
    {d : Draft} {g : Grouping Resolved} (hg : c.grouping? reference owner = some g)
    (h : ¬ ((nameOfGrouping d reference owner).1.document.hasDefinition
      (nameOfGrouping d reference owner).2 ∨ (GroupingRef.read reference owner).path ∈ building)) :
    useGrouping c (opens + 1) building reference owner d =
      let s := Site.ofGrouping (.read reference owner) g
      let use := useGrouping c opens (s.key :: building)
      let built := build use s.source (below use s) (nameOfGrouping d reference owner).1
      (built.1.define (nameOfGrouping d reference owner).2 built.2,
        some (nameOfGrouping d reference owner).2) := by
  rw [useGrouping, hg]
  simp only [Bool.or_eq_true, decide_eq_true_eq, h, if_false]
  rfl

theorem Uses.missing {reference owner : String} {d : Draft} (h : c.grouping? reference owner = none) :
    Uses c name reach pending reference owner d (d.warn (.missingGrouping reference owner), none) where
  adds := .ofNames (.refl _) id id rfl (List.subset_append_left _ _)
  answer := by simp [h]
  settled g hg := by simp [h] at hg
  reports _ := by simp [Draft.warn]

theorem Uses.named {reference owner : String} {d : Draft} {g : Grouping Resolved}
    (hg : c.grouping? reference owner = some g)
    (h : (nameOfGrouping d reference owner).1.document.hasDefinition
      (nameOfGrouping d reference owner).2 ∨ (GroupingRef.read reference owner).path ∈ pending)
    (hnamed : NamedBy name (nameOfGrouping d reference owner).1) :
    Uses c name reach pending reference owner d
      ((nameOfGrouping d reference owner).1, some (nameOfGrouping d reference owner).2) := by
  have hkey := d.get?_assignPath (GroupingRef.read reference owner).path
    (GroupingRef.read reference owner).name
  refine ⟨Adds.assignPath d _ _, ?_, fun _ _ => ⟨_, hkey, h⟩, by simp [hg]⟩
  rw [hg, Option.map_some, hnamed _ _ hkey]
  rfl

theorem Uses.opened {reference owner : String} {d : Draft} {g : Grouping Resolved} {use : Use}
    (hclosed : Site.Closed c reach) (hg : c.grouping? reference owner = some g)
    (hs : reach (.ofGrouping (.read reference owner) g))
    (hu : UseLaw c name reach ((GroupingRef.read reference owner).path :: pending) use)
    (hfree : ¬ (nameOfGrouping d reference owner).1.document.hasDefinition
      (nameOfGrouping d reference owner).2) :
    let s := Site.ofGrouping (.read reference owner) g
    let built := build use s.source (below use s) (nameOfGrouping d reference owner).1
    let d' := built.1.define (nameOfGrouping d reference owner).2 built.2
    NamedBy name d' → Uses c name reach pending reference owner d
      (d', some (nameOfGrouping d reference owner).2) := by
  intro s built d' hnamed
  have hkey := d.get?_assignPath (GroupingRef.read reference owner).path
    (GroupingRef.read reference owner).name
  obtain ⟨hadds, hmodel, hneeds, hreports⟩ :=
    build_spec hu (s := s) (fillAll_spec hu hclosed _) hclosed hs _ hnamed
  have hkey' := hadds.names _ _ hkey
  have hadds' : Adds c name reach pending (nameOfGrouping d reference owner).1 d' := by
    change Adds _ _ _ _ _ (built.1.define _ built.2)
    rw [hmodel]
    exact Adds.define hadds hfree hkey' hs hneeds hreports
  refine ⟨(Adds.assignPath d _ _).trans hadds', ?_, fun _ _ => ⟨_, hkey', .inl ?_⟩,
    by simp [hg]⟩
  · rw [hg, Option.map_some, hnamed _ _ hkey']
    rfl
  · exact Document.hasDefinition_define _ _ _

/-- Every grouping under way is another one, so the count of groupings is never used up. -/
theorem useGrouping_law (hclosed : Site.Closed c reach) {opens : Nat} {building : List SchemaPath}
    (hnodup : building.Nodup) (hsub : building ⊆ c.groupingPaths)
    (hopens : c.groupingCount ≤ opens + building.length) :
    UseLaw c name reach building (useGrouping c opens building) := by
  induction opens generalizing building with
  | zero =>
    intro reference owner d hnamed hreach
    cases hg : c.grouping? reference owner with
    | none =>
      rw [useGrouping_none hg]
      exact .missing hg
    | some g =>
      have hmem : (GroupingRef.read reference owner).path ∈ building :=
        Context.mem_of_groupingCount_le hnodup hsub (by omega) (Context.path_mem_groupingPaths hg)
      rw [useGrouping_named hg (.inr hmem)] at hnamed ⊢
      exact .named hg (.inr hmem) hnamed
  | succ opens ih =>
    intro reference owner d hnamed hreach
    cases hg : c.grouping? reference owner with
    | none =>
      rw [useGrouping_none hg]
      exact .missing hg
    | some g =>
      by_cases h : (nameOfGrouping d reference owner).1.document.hasDefinition
          (nameOfGrouping d reference owner).2 ∨ (GroupingRef.read reference owner).path ∈ building
      · rw [useGrouping_named hg h] at hnamed ⊢
        exact .named hg h hnamed
      · rw [useGrouping_opened hg h] at hnamed ⊢
        obtain ⟨hfree, hnew⟩ := not_or.1 h
        refine Uses.opened hclosed hg (hreach g hg) (ih (List.nodup_cons.2 ⟨hnew, hnodup⟩) ?_ ?_) hfree hnamed
        · exact List.cons_subset.2 ⟨Context.path_mem_groupingPaths hg, hsub⟩
        · simp only [List.length_cons]
          omega

/-- Adding a container, list or side of a procedure defines it and all it needs. -/
theorem add_spec (hclosed : Site.Closed c reach) {i : Interior} (hs : reach i.site) (d : Draft)
    (hnamed : NamedBy name (add c d i)) :
    Adds c name reach [] d (add c d i) ∧ Settled [] (add c d i) (key i.head) := by
  have hu : UseLaw c name reach [] (useGrouping c c.groupingCount []) :=
    useGrouping_law hclosed List.nodup_nil (List.nil_subset _) (by simp)
  obtain ⟨hadds, -, hsettled⟩ :=
    register_spec hu (fillAll_spec hu hclosed i.children) hclosed hs d hnamed
  exact ⟨hadds, hsettled⟩

end Shared

end YangApi
