import YangApi.Proofs.Unpacked

/-! The two strategies describe the same data. A shared definition is scattered over the groupings
that it is composed of; followed through its references it has the same properties as the one that
writes everything out, as long as copies agree with what they were copied from. -/

namespace YangApi

open Draft

/-- The names of a definition's properties, those of its parts included and references followed. -/
inductive Document.Effective (d : Document) : Model → String → Prop
  | own {m : Plain} {k : String} (h : k ∈ m.table.keys) : Effective d (.plain m) k
  | part {x : Option String} {parts : List Model} {interfaces : List String} {p : Model} {k : String}
    (hp : p ∈ parts) (h : Effective d p k) : Effective d (.composed x parts interfaces) k
  | ref {n : String} {m : Model} {k : String} (hn : d.definition? n = some m)
    (h : Effective d m k) : Effective d (.ref n) k

namespace Document

variable {d : Document} {k : String}

theorem effective_plain {m : Plain} : d.Effective (.plain m) k ↔ k ∈ m.table.keys := by
  refine ⟨fun h => ?_, .own⟩
  cases h with
  | own h => exact h

theorem effective_composed {x : Option String} {parts : List Model} {interfaces : List String} :
    d.Effective (.composed x parts interfaces) k ↔ ∃ p ∈ parts, d.Effective p k := by
  refine ⟨fun h => ?_, fun ⟨p, hp, h⟩ => .part hp h⟩
  cases h with
  | part hp h => exact ⟨_, hp, h⟩

theorem effective_ref {n : String} {m : Model} (hn : d.definition? n = some m) :
    d.Effective (.ref n) k ↔ d.Effective m k := by
  refine ⟨fun h => ?_, .ref hn⟩
  cases h with
  | ref hn' h =>
    obtain rfl := Option.some.inj (hn'.symm.trans hn)
    exact h

end Document

theorem Plain.keys_of_isEmpty {m : Plain} (h : m.isEmpty) : m.table.keys = [] := by
  unfold isEmpty at h
  cases hm : m.properties with
  | none => simp [table, hm]
  | some t =>
    have ht : t.entries = [] := by simpa [hm, Table.isEmpty] using h
    simp [table, hm, Table.keys, ht]

namespace Site

variable {c : Context} {name : SchemaPath → String} {s : Site} {k : String}

def propertyNames (s : Site) : List String :=
  (Node.flat s.children).map fun n => s.source.parent.propertyName n.head

/-- The names of the children that a grouping brought, alone or with a choice around them. -/
def copiedNames (s : Site) : List String :=
  ((Node.flattenAll false s.children).filter Prod.snd).map fun e =>
    s.source.parent.propertyName e.1.head

def usedNames (c : Context) (s : Site) : List String :=
  s.source.uses.flatMap fun u =>
    (c.groupingAt? (.read u s.source.owner)).toList.flatMap fun g =>
      (ofGrouping (.read u s.source.owner) g).propertyNames

theorem mem_usedNames : k ∈ s.usedNames c ↔ ∃ u ∈ s.source.uses, ∃ g,
    c.groupingAt? (.read u s.source.owner) = some g ∧
      k ∈ (ofGrouping (.read u s.source.owner) g).propertyNames := by
  simp only [usedNames, List.mem_flatMap, Option.mem_toList]

theorem mem_keys_ownModel : k ∈ (s.ownModel name).table.keys ↔
    ∃ n ∈ s.own, s.source.parent.propertyName n.head = k := by
  have hdata : ∀ n ∈ s.own, n.isData := fun n hn => Node.isData_of_mem_flat (s.own_subset_flat hn)
  refine (mem_keys_extend hdata).trans ?_
  simp [Plain.table]

/-- A site without groupings says all itself; any other says what no grouping brought. -/
theorem mem_propertyNames (name : SchemaPath → String) : k ∈ s.propertyNames ↔
    k ∈ (s.ownModel name).table.keys ∨ (s.source.uses ≠ [] ∧ k ∈ s.copiedNames) := by
  have hall : k ∈ s.propertyNames ↔ ∃ e ∈ Node.flattenAll false s.children,
      s.source.parent.propertyName e.1.head = k := by
    simp only [propertyNames, Node.flat, List.map_map, List.mem_map, Function.comp_apply]
  have hcopied : k ∈ s.copiedNames ↔ ∃ e ∈ Node.flattenAll false s.children,
      e.2 ∧ s.source.parent.propertyName e.1.head = k := by
    simp only [copiedNames, List.mem_map, List.mem_filter, and_assoc]
  rw [hall, hcopied, mem_keys_ownModel]
  by_cases huses : s.source.uses = []
  · simp [own, Node.kept, huses]
  · have hown : (∃ n ∈ s.own, s.source.parent.propertyName n.head = k) ↔
        ∃ e ∈ Node.flattenAll false s.children,
          ¬ e.2 ∧ s.source.parent.propertyName e.1.head = k := by
      have hflag : s.source.uses.isEmpty = false := by simpa using huses
      simp only [own, Node.kept, hflag, List.mem_map, List.mem_filter]
      constructor
      · rintro ⟨n, ⟨e, ⟨he, hkeep⟩, rfl⟩, hk⟩
        exact ⟨e, he, by simpa using hkeep, hk⟩
      · rintro ⟨e, he, hkeep, hk⟩
        exact ⟨e.1, ⟨e, ⟨he, by simpa using hkeep⟩, rfl⟩, hk⟩
    rw [hown]
    constructor
    · rintro ⟨e, he, hk⟩
      by_cases hflag : e.2
      · exact .inr ⟨huses, e, he, hflag, hk⟩
      · exact .inl ⟨e, he, hflag, hk⟩
    · rintro (⟨e, he, -, hk⟩ | ⟨-, e, he, -, hk⟩) <;> exact ⟨e, he, hk⟩

theorem effective_model {d : Document} : d.Effective (s.model c name) k ↔
    k ∈ (s.ownModel name).table.keys ∨ ∃ p ∈ s.parents c, d.Effective (.ref (name p)) k := by
  unfold model
  dsimp only
  split
  · next hparents =>
    have hnone : s.parents c = [] := by simpa using hparents
    rw [Document.effective_plain, hnone]
    simp [Plain.table]
  · rw [Document.effective_composed]
    simp only [List.mem_append, or_and_right, exists_or, List.mem_map]
    rw [or_comm]
    refine or_congr ?_ ?_
    · split
      · next hempty => simp [Plain.keys_of_isEmpty hempty]
      · simp [Document.effective_plain]
    · constructor
      · rintro ⟨_, ⟨_, ⟨p, hp, rfl⟩, rfl⟩, h⟩
        exact ⟨p, hp, h⟩
      · rintro ⟨p, hp, h⟩
        exact ⟨_, ⟨_, ⟨p, hp, rfl⟩, rfl⟩, h⟩

theorem forall_of {P : Site → Prop} (hinterior : ∀ i ∈ c.interiors, P i.site)
    (hgrouping : ∀ m ∈ c.modules, ∀ g ∈ m.groupings, P (ofGrouping ⟨m.name, g.name⟩ g)) :
    ∀ s, Site.Of c s → P s := by
  intro s hs
  cases hs with
  | interior i hi => exact hinterior i hi
  | grouping a g hg =>
    obtain ⟨m, hm, ho, hmem, hn⟩ := Context.mem_of_groupingAt? hg
    have hP := hgrouping m hm g hmem
    rwa [ho, hn] at hP

end Site

/-- What the agreement of the strategies rests on. References to groupings that do not exist are
allowed: they bring no names and are left out of definitions. -/
structure Context.Consistent (c : Context) : Prop where
  acyclic : c.AcyclicUses
  copies : ∀ s, Site.Of c s → s.source.uses ≠ [] → ∀ k, k ∈ s.copiedNames ↔ k ∈ s.usedNames c
  sameNames : ∀ i ∈ c.interiors, ∀ j ∈ c.interiors, i.head.definitionPath = j.head.definitionPath →
    ∀ k, k ∈ i.propertyNames ↔ k ∈ j.propertyNames
  noGrouping : ∀ i ∈ c.interiors, ∀ a g, c.groupingAt? a = some g → i.head.definitionPath ≠ a.path
  paths : (c.dataInteriors.map fun i => i.head.path).Nodup

theorem Site.effective_iff {c : Context} {name : SchemaPath → String} {d : Document} {k : String}
    (hc : c.Consistent) {s : Site} (hs : Site.Of c s)
    (hused : ∀ u ∈ s.source.uses, ∀ x, c.groupingAt? (.read u s.source.owner) = some x →
      (d.Effective (.ref (name (GroupingRef.read u s.source.owner).path)) k ↔
        k ∈ (Site.ofGrouping (.read u s.source.owner) x).propertyNames)) :
    d.Effective (s.model c name) k ↔ k ∈ s.propertyNames := by
  have hparents : (∃ p ∈ s.parents c, d.Effective (.ref (name p)) k) ↔ k ∈ s.usedNames c := by
    rw [Site.mem_usedNames]
    constructor
    · rintro ⟨p, hp, h⟩
      obtain ⟨u, hu, x, hx, rfl⟩ := Site.mem_parents.1 hp
      exact ⟨u, hu, x, hx, (hused u hu x hx).1 h⟩
    · rintro ⟨u, hu, x, hx, h⟩
      exact ⟨_, Site.mem_parents.2 ⟨u, hu, x, hx, rfl⟩, (hused u hu x hx).2 h⟩
  rw [Site.effective_model, hparents, Site.mem_propertyNames name]
  refine or_congr_right ?_
  by_cases huses : s.source.uses = []
  · simp [huses, Site.usedNames]
  · rw [hc.copies s hs huses]
    exact ⟨fun h => ⟨huses, h⟩, And.right⟩

namespace Generator

variable {g : Generator} {k : String}

def withStrategy (g : Generator) (s : Strategy) : Generator :=
  { g with config := { g.config with strategy := s } }

section shared

variable (hstrategy : g.config.strategy = .shared)
  (hmodules : ∀ m ∈ g.modules, m ∈ g.context.modules) (hc : g.context.Consistent)

include hstrategy hmodules

theorem siteOf_of_visited {i : Interior} (hi : g.Visited i) :
    Site.Of g.context (g.config.strategy.site i) := by
  have hreach := reach_of_visited hmodules hi
  rw [hstrategy] at hreach ⊢
  exact hreach

theorem siteOf_of_settled {p : SchemaPath} (h : Settled [] g.draft p) :
    ∃ s, Site.Of g.context s ∧ s.key = p ∧
      g.draft.document.definition? (g.finalName p) = some (s.model g.context g.finalName) ∧
      ∀ q ∈ s.needs g.context, Settled [] g.draft q :=
  site_of_settled (Site.closed_of g.context) (fun _ => siteOf_of_visited hstrategy hmodules) h

/-- The definition of a grouping's path is that of the grouping, where no node is defined there. -/
theorem definition?_of_grouping
    (hapart : ∀ i ∈ g.context.interiors, ∀ a x, g.context.groupingAt? a = some x →
      i.head.definitionPath ≠ a.path)
    {a : GroupingRef} {x : Grouping Resolved} (hx : g.context.groupingAt? a = some x)
    (h : Settled [] g.draft a.path) :
    g.draft.document.definition? (g.finalName a.path) =
      some ((Site.ofGrouping a x).model g.context g.finalName) ∧
      ∀ q ∈ (Site.ofGrouping a x).needs g.context, Settled [] g.draft q := by
  obtain ⟨s, hs, hkey, hdef, hneeds⟩ := siteOf_of_settled hstrategy hmodules h
  cases hs with
  | interior i hi => exact absurd hkey (hapart i hi a x hx)
  | grouping a' x' hx' =>
    obtain rfl := GroupingRef.path_inj hkey
    obtain rfl := Option.some.inj (hx'.symm.trans hx)
    exact ⟨hdef, hneeds⟩

include hc

/-- The induction is on what a grouping uses, which comes to an end. -/
theorem effective_grouping {a : GroupingRef} {x : Grouping Resolved}
    (hx : g.context.groupingAt? a = some x) (h : Settled [] g.draft a.path) :
    g.draft.document.Effective (.ref (g.finalName a.path)) k ↔
      k ∈ (Site.ofGrouping a x).propertyNames := by
  induction a using hc.acyclic.wellFounded.induction generalizing x with
  | _ a ih =>
    obtain ⟨hdef, hneeds⟩ := definition?_of_grouping hstrategy hmodules hc.noGrouping hx h
    rw [Document.effective_ref hdef]
    refine Site.effective_iff hc (.grouping a x hx) fun u hu y hy => ?_
    have hneed : (GroupingRef.read u a.owner).path ∈ (Site.ofGrouping a x).needs g.context :=
      List.mem_append_left _ (Site.mem_parents.2 ⟨u, hu, y, hy, rfl⟩)
    exact ih _ ⟨x, hx, u, hu, rfl⟩ hy (hneeds _ hneed)

/-- Whichever node wrote the definition of a path, it has the names of every node with that path. -/
theorem effective_visited {i : Interior} (hi : g.Visited i) :
    ∃ m, g.draft.document.definition? (g.modelName i.head) = some m ∧
      ∀ k, g.draft.document.Effective m k ↔ k ∈ i.propertyNames := by
  have hsettled := settled_draft hi
  rw [modelName_eq hsettled]
  rw [hstrategy] at hsettled ⊢
  obtain ⟨s, hs, hkey, hdef, hneeds⟩ := siteOf_of_settled hstrategy hmodules hsettled
  refine ⟨_, hdef, fun k => ?_⟩
  have heffective := Site.effective_iff (k := k) hc hs fun u hu x hx =>
    effective_grouping hstrategy hmodules hc hx
      (hneeds _ (List.mem_append_left _ (Site.mem_parents.2 ⟨u, hu, x, hx, rfl⟩)))
  have hcontext : i ∈ g.context.interiors := hi.mem_interiors hmodules
  cases hs with
  | interior j hj => exact heffective.trans (hc.sameNames j hj i hcontext hkey k)
  | grouping a x hx => exact absurd hkey.symm (hc.noGrouping i hcontext a x hx)

end shared

theorem keys_unpacked (hstrategy : g.config.strategy = .unpacked) (hpaths : g.PathsTell)
    {i : Interior} (hi : g.Visited i) :
    ∃ m, g.draft.document.definition? (g.modelName i.head) = some (.plain m) ∧
      ∀ k, k ∈ m.table.keys ↔ k ∈ i.propertyNames := by
  have hcovered : g.Covered i := covered_iff.2 ⟨i, hi, .inl rfl⟩
  have hsettled := settled_of_covered hstrategy hpaths hcovered
  have hdef := (definition?_of_settled hstrategy hpaths hcovered hsettled).1
  rw [← (modelName_of_covered hstrategy hpaths hcovered).1, Site.model_of_parents_nil rfl] at hdef
  refine ⟨_, hdef, fun k => ?_⟩
  refine (Site.mem_keys_ownModel (s := Strategy.unpacked.site i)).trans ?_
  simp only [Strategy.own_unpacked, Interior.propertyNames, List.mem_map,
    exists_exists_and_eq_and, Node.propertyName_bare]
  rfl

/-- Sharing and unpacking give every visited node the same properties, which are those of its
children, choices flattened. -/
theorem strategies_agree {c : Context} {names : List String} {config : Config} {g : Generator}
    (hg : ofNames c names config = .ok g) (hc : c.Consistent) {i : Interior} (hi : g.Visited i) :
    ∃ m p,
      (g.withStrategy .shared).draft.document.definition?
        ((g.withStrategy .shared).modelName i.head) = some m ∧
      (g.withStrategy .unpacked).draft.document.definition?
        ((g.withStrategy .unpacked).modelName i.head) = some (.plain p) ∧
      (∀ k, (g.withStrategy .shared).draft.document.Effective m k ↔ k ∈ p.table.keys) ∧
      ∀ k, k ∈ p.table.keys ↔ k ∈ i.propertyNames := by
  obtain ⟨rfl, -, hmodules⟩ := ofNames_fields hg
  have hpaths : (g.withStrategy .unpacked).PathsTell := by
    intro i hi j hj he
    have hsubset : g.dataInteriors ⊆ g.context.dataInteriors := dataInteriors_subset hmodules
    exact List.inj_on_of_nodup_map hc.paths (hsubset hi) (hsubset hj) he
  obtain ⟨m, hm, hnames⟩ := effective_visited (g := g.withStrategy .shared) rfl hmodules hc hi
  obtain ⟨p, hp, hkeys⟩ := keys_unpacked (g := g.withStrategy .unpacked) rfl hpaths hi
  exact ⟨m, p, hm, hp, fun k => (hnames k).trans (hkeys k).symm, hkeys⟩

/-- The list of orders, whose town comes from a grouping that uses another one. -/
theorem strategies_agree_shop : ∃ c g i, Context.resolve shop = .ok c ∧
    ofNames c ["shop"] {} = .ok g ∧ c.Consistent ∧ g.Visited i ∧ i.uses = ["address"] ∧
    ∃ m p,
      (g.withStrategy .shared).draft.document.definition?
        ((g.withStrategy .shared).modelName i.head) = some m ∧
      (g.withStrategy .unpacked).draft.document.definition?
        ((g.withStrategy .unpacked).modelName i.head) = some (.plain p) ∧
      (∀ k, (g.withStrategy .shared).draft.document.Effective m k ↔ k ∈ p.table.keys) ∧
      ∀ k, k ∈ p.table.keys ↔ k ∈ ["id", "town", "number", "change", "log:audit"] := by
  obtain ⟨c, g, hresolve, hg⟩ := exists_run_shop {}
  have hspares := sparesGroupings_shop hresolve
  have hc : c.Consistent := by
    refine ⟨acyclicUses_shop hresolve, fun s hs huses k => ?_, fun i hi j hj he k => ?_,
      fun i hi a _ _ => ?_, ?_⟩
    · have hsame : ∀ s, Site.Of c s → s.source.uses ≠ [] →
          s.copiedNames ⊆ s.usedNames c ∧ s.usedNames c ⊆ s.copiedNames := by
        cases hresolve
        exact Site.forall_of (by decide) (by decide)
      exact ⟨fun h => (hsame s hs huses).1 h, fun h => (hsame s hs huses).2 h⟩
    · have hsame : ∀ i ∈ c.interiors, ∀ j ∈ c.interiors,
          i.head.definitionPath = j.head.definitionPath → i.propertyNames = j.propertyNames := by
        cases hresolve
        decide
      rw [hsame i hi j hj he]
    · exact hspares.definitionPath_ne (fun m hm => Context.placed_of_resolve hresolve hm) hi a
    · cases hresolve
      decide
  obtain ⟨i, hi, huses, hnames⟩ : ∃ i, g.Visited i ∧ i.uses = ["address"] ∧
      i.propertyNames = ["id", "town", "number", "change", "log:audit"] := by
    cases hresolve
    cases hg
    exact ⟨_, ⟨_, List.mem_cons_self .., List.mem_cons_self ..⟩, rfl, by decide⟩
  have hagree := strategies_agree hg hc hi
  rw [hnames] at hagree
  exact ⟨c, g, i, hresolve, hg, hc, hi, huses, hagree⟩

end Generator

end YangApi
