import YangApi.Proofs.Agreement
import YangApi.Proofs.Alias.Stable
import YangApi.Proofs.Closure

/-! One level of aliases. Without chains a reference to an alias goes to what the alias stands for,
and all aliases are dropped in the same pass, so a reference is left without its definition exactly
where an alias stood for another one. The aliases of a run come from sites that only use one
grouping; as long as no site at the path of that grouping is such a one too, nothing is lost. -/

namespace YangApi

namespace Document

open AliasMap

variable {d : Document} {a b r : String}

/-- With one level, exactly the references to what used to be an alias dangle. -/
theorem Closed.hasDefinition_collapse_iff (h : d.Closed) (hr : r ∈ (d.collapse false).1.refs) :
    (d.collapse false).1.hasDefinition r ↔ r ∉ (ofDefinitions d.table).names := by
  by_cases hempty : d.table.isEmpty
  · rw [collapse_of_isEmpty hempty] at hr ⊢
    simp [h r hr, ofDefinitions_of_isEmpty hempty, names]
  have hdef : d.hasDefinition r := by
    obtain ⟨s, hs, rfl⟩ := mem_refs_collapse hempty hr
    cases hget : (aliases false d.table).get? s with
    | none =>
      rw [target, hget, Option.getD_none]
      exact h s hs
    | some t =>
      rw [target, hget, Option.getD_some]
      exact h.hasDefinition_of_step hget
  obtain ⟨x, hx⟩ := hasDefinition_iff.1 hdef
  rw [hasDefinition_iff, definition?_collapse hempty, names_aliases, hx]
  by_cases hname : r ∈ (ofDefinitions d.table).names <;> simp [hname]

/-- A reference dangles afterwards exactly where two aliases followed each other. -/
theorem Closed.dangling_collapse_iff (h : d.Closed) (hr : r ∈ (d.collapse false).1.refs) :
    ¬ (d.collapse false).1.hasDefinition r ↔
      (∃ a, (ofDefinitions d.table).Step a r) ∧ r ∈ (ofDefinitions d.table).names := by
  rw [h.hasDefinition_collapse_iff hr, not_not]
  refine ⟨fun hname => ⟨?_, hname⟩, And.right⟩
  by_cases hempty : d.table.isEmpty
  · simp [ofDefinitions_of_isEmpty hempty, names] at hname
  -- a name that is kept as it is would not be one of an alias
  obtain ⟨s, -, rfl⟩ := mem_refs_collapse hempty hr
  cases hget : (aliases false d.table).get? s with
  | none =>
    rw [target, hget, Option.getD_none] at hname
    exact absurd hname (get?_eq_none_iff.1 hget)
  | some t =>
    rw [target, hget, Option.getD_some]
    exact ⟨s, hget⟩

/-- An operation that refers to the first of two aliases is left with a reference to the second. -/
theorem not_closed_collapse (hr : r ∈ d.operations.flatMap Operation.refs)
    (hstep : (ofDefinitions d.table).Step r b) (hb : b ∈ (ofDefinitions d.table).names) :
    ¬ (d.collapse false).1.Closed := by
  have hempty : ¬ d.table.isEmpty := by
    intro hempty
    simp [ofDefinitions_of_isEmpty hempty, names] at hb
  have htarget : (aliases false d.table).target r = b := by
    have hget : (aliases false d.table).get? r = some b := hstep
    rw [target, hget, Option.getD_some]
  have hmem : b ∈ (d.collapse false).1.refs := by
    obtain ⟨o, ho, hr⟩ := List.mem_flatMap.1 hr
    refine mem_refs.2 (.inr ⟨o.retarget (aliases false d.table), ?_, ?_⟩)
    · rw [collapse_of_not_isEmpty hempty]
      exact operations_mapOperations _ d ▸ List.mem_map_of_mem ho
    · rw [Operation.refs_retarget, ← htarget]
      exact List.mem_map_of_mem hr
  intro hclosed
  obtain ⟨x, hx⟩ := hasDefinition_iff.1 (hclosed b hmem)
  rw [definition?_collapse hempty, names_aliases, if_pos hb] at hx
  cases hx

end Document

namespace Site

variable {c : Context} {name : SchemaPath → String} {s : Site} {b : String}

/-- The grouping that the site stands for: the only one that it uses, if it says nothing itself. -/
def wrapped? (s : Site) : Option GroupingRef :=
  match s.source.uses with
  | [u] => if s.own.isEmpty then some (.read u s.source.owner) else none
  | _ => none

theorem wrapped?_eq_some {a : GroupingRef} : s.wrapped? = some a ↔
    s.own = [] ∧ ∃ u, s.source.uses = [u] ∧ GroupingRef.read u s.source.owner = a := by
  unfold wrapped?
  split
  · next u huses => by_cases hown : s.own = [] <;> simp [hown, huses]
  · next huses =>
    simp only [reduceCtorEq, false_iff, not_and, not_exists]
    exact fun _ u hu => absurd hu (huses u)

theorem parents_eq (h : ∀ u ∈ s.source.uses, (c.grouping? u s.source.owner).isSome) :
    s.parents c = s.source.uses.map fun u => (GroupingRef.read u s.source.owner).path := by
  unfold parents
  rw [← List.filterMap_eq_map]
  refine List.filterMap_congr fun u hu => ?_
  obtain ⟨g, hg⟩ := Option.isSome_iff_exists.1 (h u hu)
  rw [hg]
  rfl

theorem isEmpty_ownModel : (s.ownModel name).isEmpty ↔ s.own = [] := by
  constructor
  · intro hempty
    refine List.eq_nil_iff_forall_not_mem.2 fun n hn => ?_
    have hkey : s.source.parent.propertyName n.head ∈ (s.ownModel name).table.keys :=
      mem_keys_ownModel.2 ⟨n, hn, rfl⟩
    rw [Plain.keys_of_isEmpty hempty] at hkey
    cases hkey
  · intro hown
    rw [ownModel, hown]
    rfl

theorem aliasTarget?_model (h : ∀ u ∈ s.source.uses, (c.grouping? u s.source.owner).isSome) :
    (s.model c name).aliasTarget? = s.wrapped?.map fun a => name a.path := by
  unfold model wrapped?
  rw [parents_eq h]
  dsimp only
  cases huses : s.source.uses with
  | nil => rfl
  | cons u us =>
    cases us with
    | cons v vs => simp [Model.aliasTarget?]
    | nil =>
      by_cases hown : s.own = []
      · have hempty : (s.ownModel name).isEmpty := isEmpty_ownModel.2 hown
        simp [Model.aliasTarget?, hempty, hown]
      · have hfull : ¬(s.ownModel name).isEmpty := mt isEmpty_ownModel.1 hown
        simp [Model.aliasTarget?, hfull, hown]

end Site

theorem Context.UsesExist.of_site {c : Context} (h : c.UsesExist) {s : Site} (hs : Site.Of c s)
    {u : String} (hu : u ∈ s.source.uses) : (c.grouping? u s.source.owner).isSome := by
  cases hs with
  | interior i hi => exact h.interiors i hi u hu
  | grouping a g hg => exact h.of_groupingAt? hg hu

/-- Where a site only stands for a grouping, nothing at the path of that grouping only stands for
another one: neither the grouping nor a node with its definition path. -/
def Context.FlatWrappers (c : Context) : Prop :=
  ∀ s, Site.Of c s → ∀ a, s.wrapped? = some a → ∀ t, Site.Of c t → t.key = a.path →
    t.wrapped? = none

theorem Context.FlatWrappers.of_groupings {c : Context} (hspares : c.SparesGroupings)
    (hplaced : ∀ m ∈ c.modules, m.Placed)
    (h : ∀ s, Site.Of c s → ∀ a, s.wrapped? = some a → ∀ x, c.groupingAt? a = some x →
      (Site.ofGrouping a x).wrapped? = none) : c.FlatWrappers := by
  intro s hs a ha t ht hkey
  cases ht with
  | interior i hi => exact absurd hkey (hspares.definitionPath_ne hplaced hi a)
  | grouping b x hx =>
    obtain rfl := GroupingRef.path_inj hkey
    exact h s hs _ ha x hx

namespace Generator

variable {g : Generator} {k b : String}

theorem wrapped_of_step (hmodules : ∀ m ∈ g.modules, m ∈ g.context.modules)
    (huses : g.context.UsesExist)
    (h : (AliasMap.ofDefinitions g.draft.document.table).Step k b) :
    ∃ s a, Site.Of g.context s ∧ g.draft.names.get? s.key = some k ∧ s.wrapped? = some a ∧
      g.draft.names.get? a.path = some b := by
  obtain ⟨x, hx, htarget, -⟩ := AliasMap.step_ofDefinitions.1 h
  rw [← Document.definition?_eq] at hx
  obtain ⟨s, hs, hkey, rfl, hneeds, -⟩ := written_draft (Strategy.closed_reach g.context _)
    (fun i hi => reach_of_visited hmodules hi) hx
  obtain ⟨p, hp, rfl⟩ := Site.mem_parents_of_aliasTarget? htarget
  obtain ⟨u, hu, -⟩ := Site.mem_parents.1 hp
  have hof : Site.Of g.context s := by
    cases hstrategy : g.config.strategy with
    | shared =>
      rw [hstrategy] at hs
      exact hs
    | unpacked =>
      -- a site of this strategy uses nothing, so it has no parent
      rw [hstrategy] at hs
      obtain ⟨i, -, rfl⟩ := hs
      exact absurd hu List.not_mem_nil
  rw [Site.aliasTarget?_model fun u hu => huses.of_site hof hu] at htarget
  obtain ⟨a, ha, hname⟩ := Option.map_eq_some_iff.1 htarget
  have hneed : a.path ∈ s.needs g.context := by
    obtain ⟨-, v, hv, rfl⟩ := Site.wrapped?_eq_some.1 ha
    obtain ⟨y, hy⟩ := Option.isSome_iff_exists.1
      (huses.of_site hof (hv ▸ List.mem_singleton_self v))
    exact List.mem_append_left _ (Site.mem_parents.2 ⟨v, hv ▸ List.mem_singleton_self v, y, hy, rfl⟩)
  refine ⟨s, a, hof, hkey, ha, ?_⟩
  rw [← hname]
  exact (get?_of_settled (hneeds _ hneed)).1

theorem flat_of_flatWrappers (hmodules : ∀ m ∈ g.modules, m ∈ g.context.modules)
    (huses : g.context.UsesExist) (hflat : g.context.FlatWrappers) :
    (AliasMap.ofDefinitions g.draft.document.table).Flat := by
  intro k b hstep hb
  obtain ⟨e, he⟩ := Option.ne_none_iff_exists'.1 (mt AliasMap.get?_eq_none_iff.1 (not_not.2 hb))
  obtain ⟨s, a, hs, -, ha, hpath⟩ := wrapped_of_step hmodules huses hstep
  obtain ⟨t, a', ht, hkey, ha', -⟩ := wrapped_of_step hmodules huses he
  have hsame : t.key = a.path := g.distinct_draft _ _ _ hkey hpath
  rw [hflat s hs a ha t ht hsame] at ha'
  cases ha'

/-- What the default mode guarantees. A document is always made, and a reference in it is without
its definition exactly where an alias stood for another one; so none is as long as nothing at the
path of a grouping that a wrapper uses is a wrapper. -/
theorem generate_single {c : Context} {names : List String} {config : Config} {g : Generator}
    (hg : ofNames c names config = .ok g) (huses : c.UsesExist) (hvalid : config.fault? = none)
    (hsingle : config.collapseAliasChains = false) (handler : PathHandler) :
    let run : Generator := { g with handler }
    let before := AliasMap.ofDefinitions run.draft.document.table
    ∃ d ws, run.generate = .ok (d, ws) ∧
      (∀ r ∈ d.refs, ¬ d.hasDefinition r ↔ (∃ a, before.Step a r) ∧ r ∈ before.names) ∧
      (c.FlatWrappers → d.Closed) := by
  obtain ⟨rfl, rfl, hmodules⟩ := ofNames_fields hg
  intro run before
  obtain ⟨ws, hws⟩ := generate_of_valid (g := run) hvalid
  have hdraft : ({ run.draft.document with info := run.info } : Document).Closed :=
    closed_draft run
  have hdangling : ∀ r ∈ run.result.refs,
      ¬ run.result.hasDefinition r ↔ (∃ a, before.Step a r) ∧ r ∈ before.names := by
    unfold result
    rw [show run.config.collapseAliasChains = false from hsingle]
    exact fun r hr => hdraft.dangling_collapse_iff hr
  refine ⟨run.result, ws, hws, hdangling, fun hflat r hr => ?_⟩
  by_contra hnone
  obtain ⟨⟨a, hstep⟩, hname⟩ := (hdangling r hr).1 hnone
  exact flat_of_flatWrappers (g := run) hmodules huses hflat a r hstep hname

theorem generate_single_shop : ∃ c g, Context.resolve shop = .ok c ∧ c.UsesExist ∧
    c.FlatWrappers ∧ ofNames c ["shop"] {} = .ok g ∧
    ∃ d ws, g.generate = .ok (d, ws) ∧ d.Closed := by
  obtain ⟨c, g, hresolve, hg⟩ := exists_run_shop {}
  have huses := usesExist_shop hresolve
  have hflat : c.FlatWrappers := by
    refine .of_groupings (sparesGroupings_shop hresolve)
      (fun m hm => Context.placed_of_resolve hresolve hm) fun s hs a ha x hx => ?_
    have hwrapped : ∀ s, Site.Of c s →
        s.wrapped? = none ∨ s.wrapped? = some ⟨"shop", "place"⟩ := by
      cases hresolve
      exact Site.forall_of (by decide) (by decide)
    have hplace : ∀ x, c.groupingAt? ⟨"shop", "place"⟩ = some x →
        (Site.ofGrouping ⟨"shop", "place"⟩ x).wrapped? = none := by
      cases hresolve
      rintro _ ⟨⟩
      rfl
    obtain hnone | hsome := hwrapped s hs
    · rw [hnone] at ha
      cases ha
    · obtain rfl := Option.some.inj (hsome.symm.trans ha)
      exact hplace x hx
  obtain ⟨d, ws, hws, -, hclosed⟩ :=
    generate_single hg huses (Config.fault?_of_choices ..) rfl g.handler
  exact ⟨c, g, hresolve, huses, hflat, hg, d, ws, hws, hclosed hflat⟩

/-- A container that only uses a grouping that only uses another. -/
def relay : List (Module Declared) :=
  let host (origin : Option String) : Node Declared :=
    .leaf ⟨"host", none, none, none, origin⟩ .string false none
  [{ name := "net", xmlNamespace := none, abbreviation := none, revision := none
     description := none
     children := [.inner ⟨"top", none, none, none, none⟩ (.container false) ["wrapper"]
       [host (some "wrapper")]]
     rpcs := []
     groupings := [⟨"base", none, [host none], []⟩,
       ⟨"wrapper", none, [host (some "base")], ["base"]⟩] }]

theorem exists_run_relay (config : Config) :
    ∃ c g, Context.resolve relay = .ok c ∧ ofNames c ["net"] config = .ok g :=
  ⟨_, _, rfl, rfl⟩

/-- Wrappers may not be left out: the paths of the container end up with the dropped definition. -/
theorem not_closed_relay : ∃ c g d ws, Context.resolve relay = .ok c ∧ c.AcyclicUses ∧
    c.UsesExist ∧ c.SparesGroupings ∧ ofNames c ["net"] {} = .ok g ∧
    ({} : Config).fault? = none ∧ ({} : Config).collapseAliasChains = false ∧
    g.generate = .ok (d, ws) ∧ ¬ d.Closed := by
  obtain ⟨c, g, hresolve, hg⟩ := exists_run_relay {}
  have hacyclic : c.AcyclicUses := by
    cases hresolve
    exact Context.acyclicUses_of_rank (fun a => if a.name = "wrapper" then 1 else 0) (by decide)
  have huses : c.UsesExist := by
    cases hresolve
    decide
  have hspares : c.SparesGroupings := by
    cases hresolve
    decide
  have hvalid : ({} : Config).fault? = none := Config.fault?_of_choices ..
  obtain ⟨-, hconfig, -⟩ := ofNames_fields hg
  obtain ⟨ws, hws⟩ := generate_of_ofNames hg hvalid
  refine ⟨c, g, g.result, ws, hresolve, hacyclic, huses, hspares, hg, hvalid, rfl, hws, ?_⟩
  have hop : "Top" ∈ g.draft.document.operations.flatMap Operation.refs := by
    cases hresolve
    cases hg
    decide +kernel
  have htop : (g.draft.document.table.get? "Top").bind Model.aliasTarget? = some "Wrapper" := by
    cases hresolve
    cases hg
    decide +kernel
  have hwrapper :
      (g.draft.document.table.get? "Wrapper").bind Model.aliasTarget? = some "Base" := by
    cases hresolve
    cases hg
    decide +kernel
  have hstep {k b : String} (hne : b ≠ k)
      (h : (g.draft.document.table.get? k).bind Model.aliasTarget? = some b) :
      (AliasMap.ofDefinitions g.draft.document.table).Step k b := by
    obtain ⟨x, hx, hb⟩ := Option.bind_eq_some_iff.1 h
    exact AliasMap.step_ofDefinitions.2 ⟨x, hx, hb, hne⟩
  have hdangling := Document.not_closed_collapse
    (d := { g.draft.document with info := g.info }) hop (hstep (by decide) htop)
    (AliasMap.mem_names_of_step (hstep (by decide) hwrapper))
  unfold result
  rw [hconfig]
  exact hdangling

end Generator

end YangApi
