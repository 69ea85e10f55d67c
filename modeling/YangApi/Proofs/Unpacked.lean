import Mathlib.Data.Set.Function
import YangApi.Proofs.Alias.Collapse
import YangApi.Proofs.Definitions.Content
import YangApi.Proofs.Run
import YangApi.Proofs.Traversal

/-! What the unpacking strategy defines: exactly what is visited and what is below it, each by a plain
model of its own with one property a child. Paths tell nodes apart here, so the node that wrote the
definition of a path is the node at that path. -/

namespace YangApi

open Draft

theorem Site.model_of_parents_nil {c : Context} {s : Site} (h : s.parents c = [])
    (name : SchemaPath → String) :
    s.model c name = .plain { s.ownModel name with description := s.source.description } := by
  unfold model
  simp [h]

namespace Generator

variable {g : Generator} {i j : Interior}

/-- Everything outside groupings, in the modules that are selected. -/
def dataInteriors (g : Generator) : List Interior := g.modules.flatMap Module.dataInteriors

theorem mem_interiors_of_mem_dataInteriors {c : Context}
    (hmodules : ∀ m ∈ g.modules, m ∈ c.modules) (hi : i ∈ g.dataInteriors) : i ∈ c.interiors := by
  obtain ⟨m, hm, hi⟩ := List.mem_flatMap.1 hi
  exact List.mem_flatMap.2 ⟨m, hmodules m hm, List.mem_append_left _ hi⟩

theorem dataInteriors_subset {c : Context} (hmodules : ∀ m ∈ g.modules, m ∈ c.modules) :
    g.dataInteriors ⊆ c.dataInteriors := by
  intro i hi
  obtain ⟨m, hm, hi⟩ := List.mem_flatMap.1 hi
  exact List.mem_flatMap.2 ⟨m, hmodules m hm, hi⟩

/-- Outside groupings, a path stands for one node. -/
def PathsTell (g : Generator) : Prop :=
  ∀ i ∈ g.dataInteriors, ∀ j ∈ g.dataInteriors, i.head.path = j.head.path → i = j

def modelName (g : Generator) (r : Resolved) : String := (g.config.strategy.nameOf g.draft r).2

/-- What the chosen elements reach: containers and lists at the places that are visited, sides of
procedures, and all below them, whichever module that belongs to. -/
def Covered (g : Generator) (i : Interior) : Prop :=
  (.data ∈ g.config.elements ∧ ∃ m ∈ g.modules, ∃ p ∈ m.visited .down g.moduleNames,
    i = p.node ∨ i ∈ p.node.below) ∨
  (.rpc ∈ g.config.elements ∧ ∃ m ∈ g.modules, ∃ r ∈ m.rpcs, ∃ s ∈ r.sides, i ∈ s.interiors)

theorem covered_iff : g.Covered i ↔ ∃ v, g.Visited v ∧ (i = v ∨ i ∈ v.below) := by
  constructor
  · rintro (⟨hdata, m, hm, p, hp, hi⟩ | ⟨hrpc, m, hm, r, hr, s, hs, hi⟩)
    · obtain ⟨s, hs⟩ := Module.exists_path_iff_visited.2 ⟨hdata, p, hp, rfl⟩
      exact ⟨p.node, ⟨(m.name, .path p.node s), mem_visits.2 ⟨m, hm, rfl, hs⟩,
        List.mem_singleton_self p.node⟩, hi⟩
    · refine ⟨s.interior, ⟨(m.name, Rpc.visit m.name r), mem_visits.2 ⟨m, hm, rfl, ?_⟩, ?_⟩,
        List.mem_cons.1 hi⟩
      · exact Module.mem_visits.2 (.inr ⟨hrpc, r, hr, rfl⟩)
      · exact List.mem_map_of_mem hs
  · rintro ⟨v, ⟨⟨moduleName, w⟩, hw, hv⟩, hi⟩
    obtain ⟨m, hm, rfl, hwm⟩ := mem_visits.1 hw
    cases w with
    | define u => cases hv
    | path u s =>
      obtain rfl := List.mem_singleton.1 hv
      obtain ⟨hdata, p, hp, rfl⟩ := Module.exists_path_iff_visited.1 ⟨s, hwm⟩
      exact .inl ⟨hdata, m, hm, p, hp, hi⟩
    | rpc r s =>
      obtain ⟨side, hside, rfl⟩ := List.mem_map.1 hv
      rcases Module.mem_visits.1 hwm with ⟨-, hmem⟩ | ⟨hrpc, r', hr', he⟩
      · exact absurd hmem Node.not_rpc_mem_visitsAll
      · cases he
        exact .inr ⟨hrpc, m, hm, _, hr', side, hside, List.mem_cons.2 hi⟩

theorem Covered.below (h : g.Covered i) (hj : j ∈ i.below) : g.Covered j := by
  obtain ⟨v, hv, hi⟩ := covered_iff.1 h
  refine covered_iff.2 ⟨v, hv, .inr ?_⟩
  rcases hi with rfl | hi
  · exact hj
  · exact Interior.below_subset hi hj

theorem Covered.mem_dataInteriors (h : g.Covered i) : i ∈ g.dataInteriors := by
  obtain ⟨v, hv, hi⟩ := covered_iff.1 h
  obtain ⟨m, hm, hmem⟩ := hv.mem_dataInteriors
  refine List.mem_flatMap.2 ⟨m, hm, ?_⟩
  rcases hi with rfl | hi
  · exact hmem
  · exact Module.below_subset_dataInteriors hmem hi

theorem modelName_eq (h : Settled [] g.draft (g.config.strategy.key i.head)) :
    g.modelName i.head = g.finalName (g.config.strategy.key i.head) :=
  congrArg Prod.snd (Registry.assign_eq (get?_of_settled h).1 _ _)

def CoveredSite (g : Generator) (s : Site) : Prop :=
  ∃ i, g.Covered i ∧ Strategy.unpacked.site i = s

theorem closed_coveredSite (g : Generator) : Site.Closed g.context g.CoveredSite :=
  Strategy.closed_unpacked g.context fun i hi _ hj => hi.below (i.inside_subset_below hj)

section exact

variable (hstrategy : g.config.strategy = .unpacked) (hpaths : g.PathsTell)

include hstrategy

theorem coveredSite_of_visited (hi : g.Visited i) :
    g.CoveredSite (g.config.strategy.site i) := by
  rw [hstrategy]
  exact ⟨i, covered_iff.2 ⟨i, hi, .inl rfl⟩, rfl⟩

theorem plain_of_definition? {k : String} {x : Model}
    (h : g.draft.document.definition? k = some x) :
    ∃ i, g.Covered i ∧ g.draft.names.get? i.head.path = some k ∧
      x = (Strategy.unpacked.site i).model g.context g.finalName := by
  obtain ⟨_, ⟨i, hi, rfl⟩, hk, hx, -⟩ := written_draft g.closed_coveredSite
    (fun i hi => coveredSite_of_visited hstrategy hi) h
  exact ⟨i, hi, hk, hx⟩

include hpaths

theorem definition?_of_settled (hi : g.Covered i) (h : Settled [] g.draft i.head.path) :
    g.draft.document.definition? (g.finalName i.head.path) =
      some ((Strategy.unpacked.site i).model g.context g.finalName) ∧
      ∀ q ∈ (Strategy.unpacked.site i).needs g.context, Settled [] g.draft q := by
  obtain ⟨_, ⟨j, hj, rfl⟩, hkey, hdef, hneeds⟩ := site_of_settled g.closed_coveredSite
    (fun i hi => coveredSite_of_visited hstrategy hi) h
  have hpath : j.head.path = i.head.path := hkey
  obtain rfl := hpaths j hj.mem_dataInteriors i hi.mem_dataInteriors hpath
  exact ⟨hdef, hneeds⟩

theorem settled_of_covered (h : g.Covered i) : Settled [] g.draft i.head.path := by
  have hstep : ∀ i, g.Covered i ∧ Settled [] g.draft i.head.path → ∀ j ∈ i.inside,
      g.Covered j ∧ Settled [] g.draft j.head.path := by
    rintro i ⟨hi, hsettled⟩ j hj
    refine ⟨hi.below (i.inside_subset_below hj), ?_⟩
    exact (definition?_of_settled hstrategy hpaths hi hsettled).2 _ (Strategy.needs_unpacked _ hj)
  obtain ⟨v, hv, hi⟩ := covered_iff.1 h
  have hstart : g.Covered v ∧ Settled [] g.draft v.head.path := by
    have hsettled := settled_draft hv
    rw [hstrategy] at hsettled
    exact ⟨covered_iff.2 ⟨v, hv, .inl rfl⟩, hsettled⟩
  rcases hi with rfl | hi
  · exact hstart.2
  · exact (Interior.below_induction hstep hstart i hi).2

theorem modelName_of_covered (h : g.Covered i) :
    g.modelName i.head = g.finalName i.head.path ∧
      g.draft.names.get? i.head.path = some (g.modelName i.head) := by
  have hsettled := settled_of_covered hstrategy hpaths h
  have hname : g.modelName i.head = g.finalName i.head.path := by
    have heq := modelName_eq (g := g) (i := i) (by rwa [hstrategy])
    rwa [hstrategy] at heq
  exact ⟨hname, hname ▸ (get?_of_settled hsettled).1⟩

theorem bijOn_modelName : Set.BijOn (fun i : Interior => g.modelName i.head) {i | g.Covered i}
    {k | g.draft.document.hasDefinition k} := by
  refine ⟨fun i hi => ?_, fun i hi j hj he => ?_, fun k hk => ?_⟩
  · have hsettled := settled_of_covered hstrategy hpaths hi
    have hname := (modelName_of_covered hstrategy hpaths hi).1
    exact (congrArg g.draft.document.hasDefinition hname).trans (get?_of_settled hsettled).2
  · have hnamei := (modelName_of_covered hstrategy hpaths hi).2
    have hnamej := (modelName_of_covered hstrategy hpaths hj).2
    have he : g.modelName i.head = g.modelName j.head := he
    rw [← he] at hnamej
    exact hpaths i hi.mem_dataInteriors j hj.mem_dataInteriors
      (g.distinct_draft _ _ _ hnamei hnamej)
  · obtain ⟨x, hx⟩ := Document.hasDefinition_iff.1 hk
    obtain ⟨i, hi, hget, -⟩ := plain_of_definition? hstrategy hx
    have hname := (modelName_of_covered hstrategy hpaths hi).2
    exact ⟨i, hi, Option.some.inj (hname.symm.trans hget)⟩

theorem writtenOut_of_covered (hnames : ∀ i ∈ g.dataInteriors, i.propertyNames.Nodup)
    (hi : g.Covered i) : ∃ m, g.draft.document.definition? (g.modelName i.head) = some (.plain m) ∧
      i.WrittenOut g.modelName m := by
  have hsettled := settled_of_covered hstrategy hpaths hi
  have hdef := (definition?_of_settled hstrategy hpaths hi hsettled).1
  rw [Site.model_of_parents_nil rfl] at hdef
  have hwritten := Interior.writtenOut_bare g.finalName (hnames i hi.mem_dataInteriors)
  refine ⟨_, (modelName_of_covered hstrategy hpaths hi).1 ▸ hdef, hwritten.type, hwritten.description,
    ?_, hwritten.required⟩
  -- the children are covered too, so that their names are those of their definitions
  have hchild : ∀ n ∈ Node.flat i.children, ∀ j, n.interior? = some j →
      g.finalName j.head.path = g.modelName j.head := by
    intro n hn j hj
    have hcovered := hi.below (i.inside_subset_below (List.mem_filterMap.2 ⟨n, hn, hj⟩))
    exact (modelName_of_covered hstrategy hpaths hcovered).1.symm
  have hboth := (List.forall₂_and_left _ _).2 ⟨hchild, hwritten.properties⟩
  exact hboth.imp fun n e ⟨hj, hname, hdescribes⟩ => ⟨hname, hdescribes.congr hj⟩

end exact

/-- Unpacking is exact. If paths and names of children are distinct, then the definitions of the
document are in one-to-one correspondence with what the chosen elements reach, and each of them
writes out its node. -/
theorem generate_unpacked (hvalid : g.config.fault? = none)
    (hstrategy : g.config.strategy = .unpacked)
    (hpaths : (g.dataInteriors.map fun i => i.head.path).Nodup)
    (hnames : ∀ i ∈ g.dataInteriors, i.propertyNames.Nodup) :
    ∃ d ws, g.generate = .ok (d, ws) ∧
      Set.BijOn (fun i : Interior => g.modelName i.head) {i | g.Covered i} {k | d.hasDefinition k} ∧
      ∀ i, g.Covered i → ∃ m, d.definition? (g.modelName i.head) = some (.plain m) ∧
        i.WrittenOut g.modelName m := by
  have htell : g.PathsTell := fun i hi j hj he => List.inj_on_of_nodup_map hpaths hi hj he
  obtain ⟨ws, hws⟩ := generate_of_valid hvalid
  have hplain : ∀ k x, g.draft.document.definition? k = some x → ∃ m, x = .plain m := by
    intro k x hx
    obtain ⟨i, -, -, rfl⟩ := plain_of_definition? hstrategy hx
    exact ⟨_, Site.model_of_parents_nil rfl _⟩
  have hsame : ∀ k, g.result.definition? k = g.draft.document.definition? k := fun k =>
    Document.definition?_collapse_of_plain (d := { g.draft.document with info := g.info }) hplain _ k
  have hdefined : ∀ k, g.result.hasDefinition k = g.draft.document.hasDefinition k :=
    fun k => congrArg Option.isSome (hsame k)
  refine ⟨g.result, ws, hws, ?_, fun i hi => ?_⟩
  · simp only [hdefined]
    exact bijOn_modelName hstrategy htell
  · rw [hsame]
    exact writtenOut_of_covered hstrategy htell hnames hi

/-- The list of orders is covered, and its definition writes it out. -/
theorem generate_unpacked_shop : ∃ c g, Context.resolve shop = .ok c ∧
    ofNames c ["shop"] { strategy := .unpacked } = .ok g ∧
    (g.dataInteriors.map fun i => i.head.path).Nodup ∧
    (∀ i ∈ g.dataInteriors, i.propertyNames.Nodup) ∧
    ∃ d ws, g.generate = .ok (d, ws) ∧
      Set.BijOn (fun i : Interior => g.modelName i.head) {i | g.Covered i} {k | d.hasDefinition k} ∧
      (∀ i, g.Covered i → ∃ m, d.definition? (g.modelName i.head) = some (.plain m) ∧
        i.WrittenOut g.modelName m) ∧
      ∃ i m, g.Covered i ∧ i.propertyNames = ["id", "town", "number", "change", "log:audit"] ∧
        d.definition? "Order" = some (.plain m) ∧ i.WrittenOut g.modelName m := by
  obtain ⟨c, g, hresolve, hg⟩ := exists_run_shop { strategy := .unpacked }
  obtain ⟨-, hconfig, -⟩ := ofNames_fields hg
  have hpaths : (g.dataInteriors.map fun i => i.head.path).Nodup := by
    cases hresolve
    cases hg
    decide
  have hnames : ∀ i ∈ g.dataInteriors, i.propertyNames.Nodup := by
    cases hresolve
    cases hg
    decide
  have hvalid : g.config.fault? = none := hconfig ▸ Config.fault?_of_choices ..
  obtain ⟨d, ws, hws, hbij, hdefined⟩ :=
    generate_unpacked hvalid (by rw [hconfig]) hpaths hnames
  obtain ⟨i, hi, hchildren, hname⟩ : ∃ i, g.Covered i ∧
      i.propertyNames = ["id", "town", "number", "change", "log:audit"] ∧
        g.modelName i.head = "Order" := by
    cases hresolve
    cases hg
    refine ⟨_, .inl ⟨List.mem_cons_self .., _, List.mem_cons_self .., _, List.mem_cons_self ..,
      .inl rfl⟩, ?_⟩
    decide +kernel
  obtain ⟨m, hm, hwritten⟩ := hdefined i hi
  exact ⟨c, g, hresolve, hg, hpaths, hnames, d, ws, hws, hbij, hdefined, i, m, hi, hchildren,
    hname ▸ hm, hwritten⟩

end Generator

end YangApi
