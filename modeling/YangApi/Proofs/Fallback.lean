import YangApi.Proofs.Agreement
import YangApi.Proofs.Wrappers

/-! What is left of a definition when no grouping that it uses exists. Each of them is reported, and
instead of a composition there is a plain model; but this one is made like the inline part of a
composition, without the children that a grouping brought, and no reference stands for them. -/

namespace YangApi

open Draft

namespace Interior

def keptNames (i : Interior) : List String :=
  (Node.kept true (Node.flattenAll false i.children)).map fun n => i.parent.propertyName n.head

theorem mem_propertyNames_iff {i : Interior} {k : String} :
    k ∈ i.propertyNames ↔ k ∈ i.keptNames ∨ k ∈ i.site.copiedNames := by
  simp only [propertyNames, keptNames, Site.copiedNames, Node.flat, Node.kept, List.map_map,
    List.mem_map, List.mem_filter, Function.comp_apply]
  constructor
  · rintro ⟨e, he, rfl⟩
    by_cases hcopied : e.2
    · exact .inr ⟨e, ⟨he, hcopied⟩, rfl⟩
    · exact .inl ⟨e, ⟨he, by simp [hcopied]⟩, rfl⟩
  · rintro (⟨e, ⟨he, -⟩, rfl⟩ | ⟨e, ⟨he, -⟩, rfl⟩) <;> exact ⟨e, he, rfl⟩

end Interior

theorem Site.keys_ownModel (name : SchemaPath → String) (s : Site) :
    (s.ownModel name).table.keys =
      Text.distinct (s.own.map fun n => s.source.parent.propertyName n.head) :=
  keys_extend fun _ hn => Node.isData_of_mem_flat (s.own_subset_flat hn)

namespace Generator

variable {g : Generator} {i : Interior}

theorem settled_of_hasDefinition {r : Resolved}
    (h : g.draft.document.hasDefinition (g.modelName r)) :
    Settled [] g.draft (g.config.strategy.key r) := by
  obtain ⟨m, hm⟩ := Document.hasDefinition_iff.1 h
  obtain ⟨s, -, hkey, -⟩ := written_draft (Site.Closed.all g.context) (fun _ _ => trivial) hm
  have hassigned := g.draft.get?_assignPath (g.config.strategy.key r) r.name
  have hwithin := Registry.within_assign g.draft.names (g.config.strategy.key r)
    (camelCase r.name) (g.config.strategy.key r).qualifiers
  have hdistinct := g.distinct_draft.assign (g.config.strategy.key r)
    (camelCase r.name) (g.config.strategy.key r).qualifiers
  have hsame : s.key = g.config.strategy.key r :=
    hdistinct _ _ _ (hwithin _ _ hkey) hassigned
  exact ⟨g.modelName r, hsame ▸ hkey, .inl h⟩

theorem hasDefinition_of_visited (hi : g.Visited i) :
    g.draft.document.hasDefinition (g.modelName i.head) := by
  have hsettled := settled_draft hi
  rw [modelName_eq hsettled]
  exact (get?_of_settled hsettled).2

/-- Without groupings to refer to, sharing keeps the names of the children that none brought. -/
theorem definition?_shared (hstrategy : g.config.strategy = .shared)
    (hmodules : ∀ m ∈ g.modules, m ∈ g.context.modules) (hapart : g.context.DefinesApart i)
    (huses : i.uses ≠ []) (hmissing : ∀ u ∈ i.uses, g.context.grouping? u i.head.owner = none)
    {m : Model} (hm : g.draft.document.definition? (g.modelName i.head) = some m) :
    (∃ p, m = .plain p ∧ p.table.keys = Text.distinct i.keptNames) ∧
      ∀ u ∈ i.uses, .missingGrouping u i.head.owner ∈ g.draft.warnings := by
  have hsettled := settled_of_hasDefinition (Document.hasDefinition_iff.2 ⟨m, hm⟩)
  have hname := (get?_of_settled hsettled).1
  rw [← modelName_eq hsettled, hstrategy] at hname
  obtain ⟨s, hs, hkey, rfl, -, hreports⟩ :=
    written_draft (Site.closed_of g.context) (fun _ => siteOf_of_visited hstrategy hmodules) hm
  obtain rfl : s = i.site := hapart.eq_site hs (g.distinct_draft _ _ _ hkey hname)
  have hparents : i.site.parents g.context = [] := by
    refine List.filterMap_eq_nil_iff.2 fun u hu => ?_
    rw [Option.map_eq_none_iff]
    exact hmissing u hu
  refine ⟨⟨_, Site.model_of_parents_nil hparents _, ?_⟩, fun u hu => hreports u hu (hmissing u hu)⟩
  have hflag : i.uses.isEmpty = false := by simpa using huses
  have hown : i.site.own = Node.kept true (Node.flattenAll false i.children) := by
    have hunfold : i.site.own = Node.kept (!i.uses.isEmpty) (Node.flattenAll false i.children) := rfl
    rw [hunfold, hflag]
    rfl
  have hkeys := Site.keys_ownModel g.finalName i.site
  rw [hown] at hkeys
  exact hkeys

/-- Unpacking has the names of all children, whatever is used. -/
theorem definition?_unpacked (hstrategy : g.config.strategy = .unpacked)
    (hpath : ∀ j ∈ g.dataInteriors, j.head.path = i.head.path → j = i)
    {m : Model} (hm : g.draft.document.definition? (g.modelName i.head) = some m) :
    ∃ p, m = .plain p ∧ p.table.keys = Text.distinct i.propertyNames := by
  have hsettled := settled_of_hasDefinition (Document.hasDefinition_iff.2 ⟨m, hm⟩)
  have hname := (get?_of_settled hsettled).1
  rw [← modelName_eq hsettled, hstrategy] at hname
  obtain ⟨j, hj, hkey, rfl⟩ := plain_of_definition? hstrategy hm
  obtain rfl := hpath j hj.mem_dataInteriors (g.distinct_draft _ _ _ hkey hname)
  refine ⟨_, Site.model_of_parents_nil rfl _, ?_⟩
  have hkeys := Site.keys_ownModel g.finalName (Strategy.unpacked.site j)
  rw [Strategy.own_unpacked, List.map_map] at hkeys
  have hnames : ((Node.flat j.children).map
      ((fun n : Node Resolved => (Strategy.unpacked.site j).source.parent.propertyName n.head) ∘
        Node.bare)) = j.propertyNames :=
    List.map_congr_left fun n _ => Node.propertyName_bare _ n
  rw [hnames] at hkeys
  exact hkeys

/-- Where all used groupings are missing, each is reported and sharing writes a plain model, which
has the names of exactly the children that no grouping brought. So it agrees with unpacking only if
every name that a grouping brought is also that of another child; any other name is lost. -/
theorem missing_groupings {c : Context} {names : List String} {config : Config} {g : Generator}
    (hg : ofNames c names config = .ok g) {i : Interior} (hapart : c.DefinesApart i)
    (hpath : ∀ j ∈ c.dataInteriors, j.head.path = i.head.path → j = i) (huses : i.uses ≠ [])
    (hmissing : ∀ u ∈ i.uses, c.grouping? u i.head.owner = none) :
    let shared := g.withStrategy .shared
    let unpacked := g.withStrategy .unpacked
    (g.Visited i → shared.draft.document.hasDefinition (shared.modelName i.head) ∧
      unpacked.draft.document.hasDefinition (unpacked.modelName i.head)) ∧
    ∀ m m', shared.draft.document.definition? (shared.modelName i.head) = some m →
      unpacked.draft.document.definition? (unpacked.modelName i.head) = some m' →
      (∀ u ∈ i.uses, .missingGrouping u i.head.owner ∈ shared.draft.warnings) ∧
      ∃ p q, m = .plain p ∧ m' = .plain q ∧ p.table.keys = Text.distinct i.keptNames ∧
        q.table.keys = Text.distinct i.propertyNames ∧
        ((∀ k, k ∈ p.table.keys ↔ k ∈ q.table.keys) ↔ i.site.copiedNames ⊆ i.keptNames) := by
  obtain ⟨rfl, -, hmodules⟩ := ofNames_fields hg
  intro shared unpacked
  refine ⟨fun hi => ⟨hasDefinition_of_visited (g := shared) hi,
    hasDefinition_of_visited (g := unpacked) hi⟩, fun m m' hm hm' => ?_⟩
  have hdata : ∀ j ∈ unpacked.dataInteriors, j.head.path = i.head.path → j = i :=
    fun j hj => hpath j (dataInteriors_subset hmodules hj)
  obtain ⟨⟨p, rfl, hp⟩, hreports⟩ :=
    definition?_shared (g := shared) rfl hmodules hapart huses hmissing hm
  obtain ⟨q, rfl, hq⟩ := definition?_unpacked (g := unpacked) rfl hdata hm'
  refine ⟨hreports, p, q, rfl, rfl, hp, hq, ?_⟩
  simp only [hp, hq, Text.mem_distinct, Interior.mem_propertyNames_iff]
  exact ⟨fun h k hk => (h k).2 (.inr hk), fun h k => ⟨.inl, fun hk => hk.elim id fun hk => h hk⟩⟩

/-- A container with a child from a grouping that is nowhere. -/
def astray : List (Module Declared) :=
  let text (name : String) (origin : Option String) : Node Declared :=
    .leaf ⟨name, none, none, none, origin⟩ .string false none
  [{ name := "net", xmlNamespace := none, abbreviation := none, revision := none
     description := none
     children := [.inner ⟨"top", none, none, none, none⟩ (.container false) ["nowhere"]
       [text "label" (some "nowhere"), text "size" none]]
     rpcs := []
     groupings := [] }]

theorem exists_astray : ∃ c g i, Context.resolve astray = .ok c ∧ ofNames c ["net"] {} = .ok g ∧
    g.Visited i ∧ c.DefinesApart i ∧ (∀ j ∈ c.dataInteriors, j.head.path = i.head.path → j = i) ∧
    i.uses ≠ [] ∧ (∀ u ∈ i.uses, c.grouping? u i.head.owner = none) ∧
    i.keptNames = ["size"] ∧ i.propertyNames = ["label", "size"] := by
  obtain ⟨c, g, hresolve, hg⟩ : ∃ c g, Context.resolve astray = .ok c ∧
      ofNames c ["net"] {} = .ok g := ⟨_, _, rfl, rfl⟩
  obtain ⟨i, hi, honly, hdata, huses, hmissing, hkept, hnames⟩ : ∃ i, g.Visited i ∧
      c.interiors = [i] ∧ c.dataInteriors = [i] ∧ i.uses = ["nowhere"] ∧
      c.grouping? "nowhere" i.head.owner = none ∧ i.keptNames = ["size"] ∧
      i.propertyNames = ["label", "size"] := by
    cases hresolve
    cases hg
    exact ⟨_, ⟨_, List.mem_cons_self .., List.mem_cons_self ..⟩, rfl, rfl, rfl, rfl, rfl, rfl⟩
  have hpaths : ∀ j ∈ c.interiors, j.head.definitionPath ∉ c.groupingPaths := by
    cases hresolve
    decide
  exact ⟨c, g, i, hresolve, hg, hi,
    ⟨fun j hj _ => List.mem_singleton.1 (honly ▸ hj), hpaths i (by simp [honly])⟩,
    fun j hj _ => List.mem_singleton.1 (hdata ▸ hj), by simp [huses], by simpa [huses] using hmissing,
    hkept, hnames⟩

theorem missing_groupings_astray : ∃ c g i, Context.resolve astray = .ok c ∧
    ofNames c ["net"] {} = .ok g ∧ c.DefinesApart i ∧
    (∀ j ∈ c.dataInteriors, j.head.path = i.head.path → j = i) ∧ i.uses ≠ [] ∧
    (∀ u ∈ i.uses, c.grouping? u i.head.owner = none) ∧
    ∃ m, (g.withStrategy .shared).draft.document.definition?
        ((g.withStrategy .shared).modelName i.head) = some m ∧
      ∃ p, m = .plain p ∧ p.table.keys = ["size"] := by
  obtain ⟨c, g, i, hresolve, hg, hi, hapart, hpath, huses, hmissing, hkept, -⟩ := exists_astray
  obtain ⟨hdefined, hnames⟩ := missing_groupings hg hapart hpath huses hmissing
  obtain ⟨hshared, hunpacked⟩ := hdefined hi
  obtain ⟨m, hm⟩ := Document.hasDefinition_iff.1 hshared
  obtain ⟨m', hm'⟩ := Document.hasDefinition_iff.1 hunpacked
  obtain ⟨-, p, q, hp, -, hkeys, -⟩ := hnames m m' hm hm'
  rw [hkept] at hkeys
  exact ⟨c, g, i, hresolve, hg, hapart, hpath, huses, hmissing, m, hm, p, hp, hkeys⟩

theorem label_lost_astray : ∃ c g i p q, Context.resolve astray = .ok c ∧
    ofNames c ["net"] {} = .ok g ∧ g.Visited i ∧ c.DefinesApart i ∧
    (∀ j ∈ c.dataInteriors, j.head.path = i.head.path → j = i) ∧
    i.uses ≠ [] ∧ (∀ u ∈ i.uses, c.grouping? u i.head.owner = none) ∧
    (g.withStrategy .shared).draft.document.definition?
      ((g.withStrategy .shared).modelName i.head) = some (.plain p) ∧
    (g.withStrategy .unpacked).draft.document.definition?
      ((g.withStrategy .unpacked).modelName i.head) = some (.plain q) ∧
    "label" ∉ p.table.keys ∧ "label" ∈ q.table.keys := by
  obtain ⟨c, g, i, hresolve, hg, hi, hapart, hpath, huses, hmissing, hkept, hnames⟩ := exists_astray
  obtain ⟨rfl, -, hmodules⟩ := ofNames_fields hg
  obtain ⟨m, hm⟩ := Document.hasDefinition_iff.1
    (hasDefinition_of_visited (g := g.withStrategy .shared) hi)
  obtain ⟨m', hm'⟩ := Document.hasDefinition_iff.1
    (hasDefinition_of_visited (g := g.withStrategy .unpacked) hi)
  obtain ⟨⟨p, rfl, hp⟩, -⟩ :=
    definition?_shared (g := g.withStrategy .shared) rfl hmodules hapart huses hmissing hm
  obtain ⟨q, rfl, hq⟩ := definition?_unpacked (g := g.withStrategy .unpacked) rfl
    (fun j hj => hpath j (dataInteriors_subset hmodules hj)) hm'
  refine ⟨_, g, i, p, q, hresolve, hg, hi, hapart, hpath, huses, hmissing, hm, hm', ?_, ?_⟩
  · rw [hp, hkept]
    decide
  · rw [hq, hnames]
    decide

end Generator

end YangApi
