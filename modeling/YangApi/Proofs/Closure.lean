import YangApi.Proofs.Alias.Collapse
import YangApi.Proofs.Run

/-! No run leaves a dangling reference. The draft has none; its aliases stand for groupings, so that
a chain of them that came back to its start would be a grouping that uses itself; and collapsing
aliases without such chains keeps every reference alive. -/

namespace YangApi

open Relation

theorem Site.mem_parents_of_aliasTarget? {c : Context} {name : SchemaPath → String} {s : Site}
    {b : String} (h : (s.model c name).aliasTarget? = some b) : ∃ p ∈ s.parents c, name p = b := by
  unfold model at h
  dsimp only at h
  split at h
  · cases h
  · next hparents =>
    unfold Model.aliasTarget? at h
    split at h
    · next hcomposed =>
      cases h
      obtain ⟨-, hparts, -⟩ := Model.composed.inj hcomposed
      cases hp : s.parents c with
      | nil => simp [hp] at hparents
      | cons p ps =>
        rw [hp] at hparts
        exact ⟨p, List.mem_cons_self .., (Model.ref.inj (List.cons.inj hparts).1)⟩
    · cases h

namespace Generator

variable {g : Generator}

def NamesGrouping (g : Generator) (a : GroupingRef) (n : String) : Prop :=
  (∃ x, g.context.groupingAt? a = some x) ∧ g.draft.names.get? a.path = some n

theorem NamesGrouping.unique {a b : GroupingRef} {n : String} (ha : g.NamesGrouping a n)
    (hb : g.NamesGrouping b n) : a = b :=
  GroupingRef.path_inj (g.distinct_draft _ _ _ ha.2 hb.2)

theorem site_of_step (hmodules : ∀ m ∈ g.modules, m ∈ g.context.modules) {k b : String}
    (h : (AliasMap.ofDefinitions g.draft.document.table).Step k b) :
    ∃ s, g.config.strategy.Reach g.context s ∧ g.draft.names.get? s.key = some k ∧
      ∃ u ∈ s.source.uses, g.NamesGrouping (.read u s.source.owner) b := by
  obtain ⟨x, hx, htarget, -⟩ := AliasMap.step_ofDefinitions.1 h
  rw [← Document.definition?_eq] at hx
  obtain ⟨s, hs, hkey, rfl, hneeds, -⟩ := written_draft (Strategy.closed_reach g.context _)
    (fun i hi => reach_of_visited hmodules hi) hx
  obtain ⟨p, hp, rfl⟩ := Site.mem_parents_of_aliasTarget? htarget
  obtain ⟨u, hu, y, hy, rfl⟩ := Site.mem_parents.1 hp
  exact ⟨s, hs, hkey, u, hu, ⟨y, hy⟩,
    (get?_of_settled (hneeds _ (List.mem_append_left _ hp))).1⟩

/-- The alias of a grouping stands for one that it uses. -/
theorem uses_of_step (hmodules : ∀ m ∈ g.modules, m ∈ g.context.modules)
    (hpaths : ∀ i ∈ g.context.interiors, ∀ a : GroupingRef, i.head.definitionPath ≠ a.path)
    {a : GroupingRef} {k b : String} (hk : g.NamesGrouping a k)
    (h : (AliasMap.ofDefinitions g.draft.document.table).Step k b) :
    ∃ a', g.context.Uses a a' ∧ g.NamesGrouping a' b := by
  obtain ⟨s, hs, hkey, u, hu, hb⟩ := site_of_step hmodules h
  have hpath : s.key = a.path := g.distinct_draft _ _ _ hkey hk.2
  cases hstrategy : g.config.strategy with
  | unpacked =>
    rw [hstrategy] at hs
    obtain ⟨i, -, rfl⟩ := hs
    exact absurd hu List.not_mem_nil
  | shared =>
    rw [hstrategy] at hs
    cases hs with
    | interior i hi => exact absurd hpath (hpaths i hi a)
    | grouping a' x hx =>
      obtain rfl := GroupingRef.path_inj hpath
      exact ⟨_, ⟨x, hx, u, hu, rfl⟩, hb⟩

theorem transGen_uses_of_transGen_step (hmodules : ∀ m ∈ g.modules, m ∈ g.context.modules)
    (hpaths : ∀ i ∈ g.context.interiors, ∀ a : GroupingRef, i.head.definitionPath ≠ a.path)
    {a : GroupingRef} {k b : String} (hk : g.NamesGrouping a k)
    (h : TransGen (AliasMap.ofDefinitions g.draft.document.table).Step k b) :
    ∃ a', TransGen g.context.Uses a a' ∧ g.NamesGrouping a' b := by
  induction h with
  | single h =>
    obtain ⟨a', huses, hb⟩ := uses_of_step hmodules hpaths hk h
    exact ⟨a', .single huses, hb⟩
  | tail _ h ih =>
    obtain ⟨a', huses, hb⟩ := ih
    obtain ⟨a'', huses', hb'⟩ := uses_of_step hmodules hpaths hb h
    exact ⟨a'', huses.tail huses', hb'⟩

/-- A cycle of aliases would be a cycle of groupings. -/
theorem acyclic_aliases (hmodules : ∀ m ∈ g.modules, m ∈ g.context.modules)
    (hpaths : ∀ i ∈ g.context.interiors, ∀ a : GroupingRef, i.head.definitionPath ≠ a.path)
    (hacyclic : g.context.AcyclicUses) :
    (AliasMap.ofDefinitions g.draft.document.table).Acyclic := by
  intro k hcycle
  obtain ⟨j, -, hlast⟩ := TransGen.tail'_iff.1 hcycle
  obtain ⟨s, -, -, u, -, hk⟩ := site_of_step hmodules hlast
  obtain ⟨a, huses, hk'⟩ := transGen_uses_of_transGen_step hmodules hpaths hk hcycle
  rw [hk'.unique hk] at huses
  exact hacyclic _ huses

/-- Whatever modules are selected, whatever elements and strategy are chosen: if no grouping uses
itself and no node or procedure takes the word that marks groupings, then every reference of the
document names one of its definitions. -/
theorem generate_closed {ms : List (Module Declared)} {c : Context} {names : List String}
    {config : Config} {g : Generator} (hresolve : Context.resolve ms = .ok c)
    (hacyclic : c.AcyclicUses) (hspares : c.SparesGroupings)
    (hg : ofNames c names config = .ok g) (hvalid : config.fault? = none)
    (hchains : config.collapseAliasChains = true) (handler : PathHandler) :
    ∃ d ws, ({ g with handler } : Generator).generate = .ok (d, ws) ∧ d.Closed := by
  obtain ⟨rfl, rfl, hmodules⟩ := ofNames_fields hg
  set g' : Generator := { g with handler }
  obtain ⟨ws, hws⟩ := generate_of_valid (g := g') hvalid
  refine ⟨g'.result, ws, hws, ?_⟩
  have haliases := acyclic_aliases (g := g') hmodules
    (fun i hi => hspares.definitionPath_ne (fun m hm => Context.placed_of_resolve hresolve hm) hi)
    hacyclic
  have hdraft : ({ g'.draft.document with info := g'.info } : Document).Closed := closed_draft g'
  have hcollapsible : Document.Collapsible g.config.collapseAliasChains
      g'.draft.document.table := by
    rw [hchains]
    exact haliases
  exact hdraft.collapse hcollapsible

theorem generate_closed_shop : ∃ c g, Context.resolve shop = .ok c ∧ c.AcyclicUses ∧
    c.SparesGroupings ∧ ofNames c ["shop"] { collapseAliasChains := true } = .ok g ∧
    ∃ d ws, g.generate = .ok (d, ws) ∧ d.Closed := by
  obtain ⟨c, g, hresolve, hg⟩ := exists_run_shop { collapseAliasChains := true }
  have hacyclic := acyclicUses_shop hresolve
  have hspares := sparesGroupings_shop hresolve
  exact ⟨c, g, hresolve, hacyclic, hspares, hg, generate_closed hresolve hacyclic hspares hg
    (Config.fault?_of_choices ..) rfl g.handler⟩

end Generator

end YangApi
