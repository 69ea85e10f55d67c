import YangApi.Proofs.ModelNames
import YangApi.Proofs.Restconf.Items
import YangApi.Proofs.SingleLevel

/-! Wrappers. A container or list that only hands on what one grouping brings has an alias for its
definition. In the document of a run the alias is gone, and the operations on the node's path refer
to the grouping, or to what that one stands for when chains are followed. -/

namespace YangApi

open Relation Draft

/-- The node says nothing itself: it uses one grouping, and groupings brought all that it holds. -/
structure Interior.Wraps (i : Interior) (reference : String) : Prop where
  uses : i.uses = [reference]
  copied : ∀ e ∈ Node.flattenAll false i.children, e.2

theorem Interior.Wraps.wrapped? {i : Interior} {reference : String} (h : i.Wraps reference) :
    i.site.wrapped? = some (.read reference i.head.owner) := by
  refine Site.wrapped?_eq_some.2 ⟨?_, reference, h.uses, rfl⟩
  have hnone : Node.kept true (Node.flattenAll false i.children) = [] := by
    simpa [Node.kept, List.filter_eq_nil_iff] using h.copied
  have huses : (!i.site.source.uses.isEmpty) = true := by
    rw [show i.site.source.uses = [reference] from h.uses]
    rfl
  rw [Site.own, huses]
  exact hnone

/-- Nothing else in the context is defined where the node is. -/
structure Context.DefinesApart (c : Context) (i : Interior) : Prop where
  interiors : ∀ j ∈ c.interiors, j.head.definitionPath = i.head.definitionPath → j = i
  groupings : i.head.definitionPath ∉ c.groupingPaths

theorem Context.DefinesApart.eq_site {c : Context} {i : Interior} (h : c.DefinesApart i) {s : Site}
    (hs : Site.Of c s) (hkey : s.key = i.head.definitionPath) : s = i.site := by
  cases hs with
  | interior j hj =>
    obtain rfl := h.interiors j hj hkey
    rfl
  | grouping a x hx =>
    have hpath : a.path = i.head.definitionPath := hkey
    exact absurd (hpath ▸ path_mem_groupingPaths hx) h.groupings

namespace Generator

variable {g : Generator} {i : Interior} {p reference : String}

theorem groupingName_eq {owner : String}
    (h : Settled [] g.draft (GroupingRef.read reference owner).path) :
    g.groupingName reference owner = g.finalName (GroupingRef.read reference owner).path :=
  congrArg Prod.snd (Registry.assign_eq (get?_of_settled h).1 _ _)

/-- The definition of a wrapper is an alias of the grouping's. -/
theorem step_of_wraps (hstrategy : g.config.strategy = .shared)
    (hmodules : ∀ m ∈ g.modules, m ∈ g.context.modules) (hi : g.Visited i)
    (hwraps : i.Wraps reference) (hgrouping : (g.context.grouping? reference i.head.owner).isSome)
    (hapart : g.context.DefinesApart i) :
    (AliasMap.ofDefinitions g.draft.document.table).Step (g.modelName i.head)
      (g.groupingName reference i.head.owner) := by
  have hsettled := settled_draft hi
  rw [hstrategy] at hsettled
  obtain ⟨x, hx⟩ := Option.isSome_iff_exists.1 hgrouping
  obtain ⟨s, hs, hkey, hdef, hneeds⟩ := siteOf_of_settled hstrategy hmodules hsettled
  obtain rfl := hapart.eq_site hs hkey
  have huses : ∀ u ∈ i.site.source.uses, (g.context.grouping? u i.site.source.owner).isSome := by
    intro u hu
    rw [show i.site.source.uses = [reference] from hwraps.uses] at hu
    obtain rfl := List.mem_singleton.1 hu
    exact hgrouping
  have htarget : (i.site.model g.context g.finalName).aliasTarget? =
      some (g.finalName (GroupingRef.read reference i.head.owner).path) := by
    rw [Site.aliasTarget?_model huses, hwraps.wrapped?]
    rfl
  have hused : Settled [] g.draft (GroupingRef.read reference i.head.owner).path := by
    refine hneeds _ (List.mem_append_left _ (Site.mem_parents.2 ⟨reference, ?_, x, hx, rfl⟩))
    rw [show i.site.source.uses = [reference] from hwraps.uses]
    exact List.mem_singleton_self _
  have hname : g.modelName i.head = g.finalName i.head.definitionPath := by
    have heq := modelName_eq (g := g) (i := i) (by rwa [hstrategy])
    rwa [hstrategy] at heq
  rw [hname, groupingName_eq hused]
  refine AliasMap.step_ofDefinitions.2 ⟨_, (Document.definition?_eq _ _).symm.trans hdef, htarget, ?_⟩
  -- the node is not defined where the grouping is
  intro hsame
  have hpath : (GroupingRef.read reference i.head.owner).path = i.head.definitionPath :=
    g.distinct_draft _ _ _ (get?_of_settled hused).1 (hsame ▸ (get?_of_settled hsettled).1)
  exact hapart.groupings (hpath ▸ Context.path_mem_groupingPaths hx)

/-- A definition that is an alias in the draft is gone in the end. -/
theorem not_hasDefinition_of_step {a b : String}
    (h : (AliasMap.ofDefinitions g.draft.document.table).Step a b) : ¬ g.result.hasDefinition a :=
  Document.not_hasDefinition_collapse (d := { g.draft.document with info := g.info })
    (AliasMap.mem_names_of_step h) g.config.collapseAliasChains

/-- Wrappers vanish. A container or list that only hands on what one grouping brings has no
definition in the document, provided that nothing else is defined where it is; and if its path is
written for no other node, then what stands there refers to the grouping, or to the end of the
chain behind the grouping if chains are followed and this one has an end. -/
theorem wrapper_vanishes {c : Context} {names : List String} {config : Config} {g : Generator}
    (hg : ofNames c names config = .ok g) (hvalid : config.fault? = none)
    (hstrategy : config.strategy = .shared) (handler : PathHandler) {i : Interior}
    {p reference : String} (hwraps : i.Wraps reference)
    (hgrouping : (c.grouping? reference i.head.owner).isSome) (hapart : c.DefinesApart i)
    (hi : ({ g with handler } : Generator).Writes p i)
    (hpath : ∀ j, ({ g with handler } : Generator).Writes p j → j = i) :
    let run : Generator := { g with handler }
    let before := AliasMap.ofDefinitions run.draft.document.table
    let grouping := run.groupingName reference i.head.owner
    ∃ d ws item, run.generate = .ok (d, ws) ∧ ¬ d.hasDefinition (run.modelName i.head) ∧
      d.paths.get? p = some item ∧
      (config.collapseAliasChains = false → item.Offers (Operation.RefersTo grouping)) ∧
      (config.collapseAliasChains = true → ∀ e, ReflTransGen before.Step grouping e →
        e ∉ before.names → item.Offers (Operation.RefersTo e)) := by
  obtain ⟨rfl, rfl, hmodules⟩ := ofNames_fields hg
  intro run before grouping
  have hstep : before.Step (run.modelName i.head) grouping :=
    step_of_wraps (g := run) hstrategy hmodules hi.visited hwraps hgrouping hapart
  obtain ⟨ws, hws⟩ := generate_of_valid (g := run) hvalid
  obtain ⟨item, hitem, hoffers⟩ := offers_result hi (n := run.modelName i.head) fun j hj => by
    rw [hpath j hj]
  refine ⟨run.result, ws, item, hws, not_hasDefinition_of_step hstep, hitem, ?_, ?_⟩
  · intro hsingle
    rwa [target_aliases_of_step (g := run) hsingle hstep] at hoffers
  · intro hchains e he hend
    rwa [target_aliases_of_end (g := run) hchains hstep he hend] at hoffers

theorem wrapper_vanishes_relay : ∃ c g i, Context.resolve relay = .ok c ∧
    ofNames c ["net"] { collapseAliasChains := true } = .ok g ∧ i.Wraps "wrapper" ∧
    (c.grouping? "wrapper" i.head.owner).isSome ∧ c.DefinesApart i ∧
    g.Writes "/data/net:top" i ∧
    ∃ d ws item, g.generate = .ok (d, ws) ∧ ¬ d.hasDefinition (g.modelName i.head) ∧
      d.paths.get? "/data/net:top" = some item ∧ item.Offers (Operation.RefersTo "Base") := by
  obtain ⟨c, g, hresolve, hg⟩ := exists_run_relay { collapseAliasChains := true }
  obtain ⟨-, -, hmodules⟩ := ofNames_fields hg
  obtain ⟨i, honly, huses, howner⟩ : ∃ i, c.interiors = [i] ∧ i.uses = ["wrapper"] ∧
      i.head.owner = "net" := by
    cases hresolve
    exact ⟨_, rfl, rfl, rfl⟩
  have heq : ∀ j ∈ c.interiors, j = i := fun j hj => List.mem_singleton.1 (honly ▸ hj)
  have hcopied : ∀ j ∈ c.interiors, ∀ e ∈ Node.flattenAll false j.children, e.2 := by
    cases hresolve
    decide
  have hwraps : i.Wraps "wrapper" := ⟨huses, hcopied i (by simp [honly])⟩
  have hgrouping : (c.grouping? "wrapper" i.head.owner).isSome := by
    rw [howner]
    cases hresolve
    decide
  have hpaths : ∀ j ∈ c.interiors, j.head.definitionPath ∉ c.groupingPaths := by
    cases hresolve
    decide
  have hapart : c.DefinesApart i := ⟨fun j hj _ => heq j hj, hpaths i (by simp [honly])⟩
  obtain ⟨j, hj⟩ : ∃ j, g.Writes "/data/net:top" j := by
    cases hresolve
    cases hg
    exact ⟨_, _, ⟨_, List.mem_cons_self ..⟩, by decide⟩
  have hsame : ∀ j, g.Writes "/data/net:top" j → j = i := by
    intro j hj
    have hdata : j ∈ g.dataInteriors := List.mem_flatMap.2 hj.visited.mem_dataInteriors
    exact heq j (mem_interiors_of_mem_dataInteriors hmodules hdata)
  obtain rfl := hsame j hj
  obtain ⟨d, ws, item, hws, hgone, hitem, -, hend⟩ := wrapper_vanishes hg
    (Config.fault?_of_choices ..) rfl g.handler hwraps hgrouping hapart hj hsame
  have hname : g.groupingName "wrapper" j.head.owner = "Wrapper" := by
    rw [howner]
    cases hresolve
    cases hg
    decide +kernel
  have hwrapper : (g.draft.document.table.get? "Wrapper").bind Model.aliasTarget? = some "Base" := by
    cases hresolve
    cases hg
    decide +kernel
  have hbase : (g.draft.document.table.get? "Base").bind Model.aliasTarget? = none := by
    cases hresolve
    cases hg
    decide +kernel
  have hchain : (AliasMap.ofDefinitions g.draft.document.table).Step
      (g.groupingName "wrapper" j.head.owner) "Base" := by
    rw [hname]
    exact AliasMap.step_of_aliasTarget? hwrapper (by decide)
  exact ⟨c, g, j, hresolve, hg, hwraps, hgrouping, hapart, hj, d, ws, item, hws, hgone, hitem,
    hend rfl "Base" (.single hchain) (AliasMap.notMem_names_of_aliasTarget? hbase)⟩

end Generator

end YangApi
