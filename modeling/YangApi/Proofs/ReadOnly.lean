import YangApi.Proofs.Required

/-! Which properties are read-only. A property is read-only if the leaf is operational for which it was
written. When groupings are shared this is the leaf of the grouping, which stands outside the data
tree and does not inherit what its copies do, or that of whichever copy was met first. -/

namespace YangApi

open Draft Relation

/-- The simple properties that a definition has under a name, its parts included and references
followed. -/
def Document.Shows (d : Document) (m : Model) (k : String) (x : Scalar) : Prop :=
  ∃ p, d.Holds m p ∧ p.table.get? k = some (.scalar x)

namespace Node

variable {n : Node Resolved} {x : Scalar}

def readOnly : Node Resolved → Bool
  | .leaf r _ _ _ => !r.config
  | _ => false

theorem property?_eq_scalar (k : Option String) :
    n.property? k = some (.scalar x) ↔ n.property? none = some (.scalar x) := by
  cases n with
  | inner r shape => cases shape <;> cases k <;> simp [property?]
  | _ => rfl

theorem readOnly_of_property? (h : n.property? none = some (.scalar x)) : x.readOnly = n.readOnly := by
  cases n with
  | inner r shape => cases shape <;> cases h
  | leaf | anyxml =>
    cases h
    rfl
  | leafList | choice => cases h

theorem exists_property?_leaf (r : Resolved) (t : LeafType) (mandatory : Bool) (v : Option String) :
    ∃ x, (Node.leaf r t mandatory v).property? none = some (.scalar x) := ⟨_, rfl⟩

end Node

namespace Site

variable {c : Context} {name : SchemaPath → String} {s : Site} {k : String}

def lastNamed? (s : Site) (k : String) : Option (Node Resolved) :=
  s.own.reverse.find? fun n => s.source.parent.propertyName n.head = k

/-- Under a name stands the property of the last child that was added with it. -/
theorem get?_extend {p : Parent} {m : Plain} {ns : List (Node Resolved)}
    (hdata : ∀ n ∈ ns, n.isData) : (extend name p m ns).table.get? k =
      ((ns.reverse.find? fun n => p.propertyName n.head = k).bind fun n =>
        n.property? (n.key?.map name)).or (m.table.get? k) := by
  induction ns generalizing m with
  | nil => rfl
  | cons n ns ih =>
    rw [List.forall_mem_cons] at hdata
    obtain ⟨q, hq⟩ := Option.isSome_iff_exists.1 (Node.property?_isSome name hdata.1)
    refine (ih hdata.2).trans ?_
    rw [Plain.table_addChild hq, Table.get?_insert, List.reverse_cons, List.find?_append]
    cases hlater : ns.reverse.find? fun n => p.propertyName n.head = k with
    | some n' =>
      have hn' : n' ∈ ns := List.mem_reverse.1 (List.mem_of_find?_eq_some hlater)
      obtain ⟨q', hq'⟩ :=
        Option.isSome_iff_exists.1 (Node.property?_isSome name (hdata.2 n' hn'))
      simp [hq']
    | none =>
      by_cases hk : p.propertyName n.head = k
      · simp [hk, hq]
      · simp [hk, Ne.symm hk]

theorem get?_ownModel : (s.ownModel name).table.get? k =
    (s.lastNamed? k).bind fun n => n.property? (n.key?.map name) := by
  refine (get?_extend fun n hn => Node.isData_of_mem_flat (s.own_subset_flat hn)).trans ?_
  exact Option.or_none

theorem scalar_ownModel (name : SchemaPath → String) {x : Scalar} :
    (s.ownModel name).table.get? k = some (.scalar x) ↔
      ∃ n, s.lastNamed? k = some n ∧ n.property? none = some (.scalar x) := by
  simp only [get?_ownModel, Option.bind_eq_some_iff, Node.property?_eq_scalar]

theorem mem_of_lastNamed? {n : Node Resolved} (h : s.lastNamed? k = some n) :
    n ∈ s.own ∧ s.source.parent.propertyName n.head = k :=
  ⟨List.mem_reverse.1 (List.mem_of_find?_eq_some h), by simpa using List.find?_some h⟩

theorem lastNamed?_eq {n : Node Resolved} (hn : n ∈ s.own) (hk : s.source.parent.propertyName n.head = k)
    (honly : ∀ n' ∈ s.own, s.source.parent.propertyName n'.head = k → n' = n) :
    s.lastNamed? k = some n := by
  cases hlast : s.lastNamed? k with
  | none =>
    rw [lastNamed?, List.find?_eq_none] at hlast
    exact absurd hk (by simpa using hlast n (List.mem_reverse.2 hn))
  | some n' =>
    obtain ⟨hn', hk'⟩ := mem_of_lastNamed? hlast
    rw [honly n' hn' hk']

/-- The simple properties of a definition are those of the last children with their names, in the site
itself or in a grouping that it draws on. -/
theorem shows_model {settled : SchemaPath → Prop} {d : Document} {x : Scalar}
    (hdefined : GroupingsDefined c name settled d) (hsettled : ∀ q ∈ s.parents c, settled q) :
    d.Shows (s.model c name) k x ↔ ∃ t, ReflTransGen (Draws c) s t ∧
      ∃ n, t.lastNamed? k = some n ∧ n.property? none = some (.scalar x) := by
  simp only [← scalar_ownModel name]
  refine exists_holds_model hdefined hsettled (P := fun p => p.table.get? k = some (.scalar x))
    (fun _ _ => Iff.rfl) fun t hempty hk => ?_
  have hmem : k ∈ (t.ownModel name).table.keys := List.mem_map_of_mem (Table.get?_eq_some_iff.1 hk)
  rw [Plain.keys_of_isEmpty hempty] at hmem
  cases hmem

end Site

namespace Strategy

variable {s : Strategy} {i : Interior}

theorem property?_viewNode (s : Strategy) (n : Node Resolved) :
    (s.viewNode n).property? none = n.property? none := by
  cases s with
  | shared => rfl
  | unpacked =>
    cases n with
    | inner r shape => cases shape <;> rfl
    | _ => rfl

theorem exists_of_mem_own {n : Node Resolved} (hn : n ∈ (s.site i).own) :
    ∃ e ∈ Node.flattenAll false i.children, s.viewNode e.1 = n := by
  cases s with
  | shared =>
    obtain ⟨e, he, rfl⟩ := List.mem_map.1 hn
    exact ⟨e, (List.mem_filter.1 he).1, rfl⟩
  | unpacked =>
    rw [own_unpacked] at hn
    obtain ⟨n', hn', rfl⟩ := List.mem_map.1 hn
    obtain ⟨e, he, rfl⟩ := List.mem_map.1 hn'
    exact ⟨e, he, rfl⟩

theorem lastNamed?_of_keeps {n : Node Resolved} {copied : Bool}
    (hn : (n, copied) ∈ Node.flattenAll false i.children) (hkeeps : s.Keeps i copied)
    (honly : ∀ e ∈ Node.flattenAll false i.children,
      i.parent.propertyName e.1.head = i.parent.propertyName n.head → e.1 = n) :
    (s.site i).lastNamed? (i.parent.propertyName n.head) = some (s.viewNode n) := by
  refine Site.lastNamed?_eq (mem_own_of_keeps hn hkeeps) ?_ fun n' hn' hk => ?_
  · rw [s.parent_site, s.propertyName_viewNode]
  · obtain ⟨e, he, rfl⟩ := exists_of_mem_own hn'
    rw [s.parent_site, s.propertyName_viewNode] at hk
    rw [honly e he hk]

end Strategy

namespace Generator

variable {g : Generator} {i : Interior}

/-- The definition of what is visited was written for a node with the same key. Its simple properties
are those of the last children with their names, in that node or in the groupings it draws on, and a
property is read-only if the leaf it was written for is. -/
theorem shows_visited (hmodules : ∀ m ∈ g.modules, m ∈ g.context.modules)
    (hapart : g.config.strategy = .shared → ∀ j ∈ g.context.interiors, ∀ a x,
      g.context.groupingAt? a = some x → j.head.definitionPath ≠ a.path)
    (hi : g.Visited i) : ∃ j ∈ g.context.interiors,
      g.config.strategy.key j.head = g.config.strategy.key i.head ∧
      ∃ m, g.draft.document.definition? (g.modelName i.head) = some m ∧
        ∀ k x, g.draft.document.Shows m k x ↔
          ∃ t, ReflTransGen (Site.Draws g.context) (g.config.strategy.site j) t ∧
            ∃ n, t.lastNamed? k = some n ∧ n.property? none = some (.scalar x) := by
  obtain ⟨j, hj, hkey, hdef, settled, hdefined, hparents⟩ := definition?_visited hmodules hapart hi
  exact ⟨j, hj, hkey, _, hdef, fun k x => Site.shows_model hdefined hparents⟩

/-- Operational leaves are read-only where they are written. The definition of a visited node was
written for a node with the same key: its simple properties are those of that node's last children with
their names and of those in the groupings that are drawn on. So a leaf that the node says itself is shown
read-only if and only if it is operational; and under the name of any leaf whatever is shown is read-only
if and only if the leaf is operational, as long as those who share the definition, or the groupings it
draws on, have no child of this name that disagrees. -/
theorem leaves_readOnly {c : Context} {names : List String} {config : Config} {g : Generator}
    (hg : ofNames c names config = .ok g)
    (hapart : config.strategy = .shared → ∀ j ∈ c.interiors, ∀ a x,
      c.groupingAt? a = some x → j.head.definitionPath ≠ a.path)
    {i : Interior} (hi : g.Visited i) :
    ∃ m, g.draft.document.definition? (g.modelName i.head) = some m ∧
      (∃ j ∈ c.interiors, config.strategy.key j.head = config.strategy.key i.head ∧
        ∀ k x, g.draft.document.Shows m k x ↔
          ∃ t, ReflTransGen (Site.Draws c) (config.strategy.site j) t ∧
            ∃ n, t.lastNamed? k = some n ∧ n.property? none = some (.scalar x)) ∧
      ∀ r t mandatory v copied,
        (Node.leaf r t mandatory v, copied) ∈ Node.flattenAll false i.children →
        ((∀ j ∈ c.interiors, config.strategy.key j.head = config.strategy.key i.head → j = i) →
          config.strategy.Keeps i copied →
          (∀ e ∈ Node.flattenAll false i.children,
            i.parent.propertyName e.1.head = i.parent.propertyName r → e.1 = .leaf r t mandatory v) →
          ∃ x, g.draft.document.Shows m (i.parent.propertyName r) x ∧ x.readOnly = !r.config) ∧
        ((∀ j ∈ c.interiors, config.strategy.key j.head = config.strategy.key i.head →
            ∀ s, ReflTransGen (Site.Draws c) (config.strategy.site j) s → ∀ n ∈ s.own,
              s.source.parent.propertyName n.head = i.parent.propertyName r →
              n.readOnly = !r.config) →
          ∀ x, g.draft.document.Shows m (i.parent.propertyName r) x → x.readOnly = !r.config) := by
  obtain ⟨rfl, rfl, hmodules⟩ := ofNames_fields hg
  obtain ⟨j, hj, hkey, m, hdef, hshows⟩ := shows_visited hmodules hapart hi
  refine ⟨m, hdef, ⟨j, hj, hkey, hshows⟩, fun r t mandatory v copied hn => ⟨?_, ?_⟩⟩
  · intro halone hkeeps honly
    obtain rfl := halone j hj hkey
    have hlast := Strategy.lastNamed?_of_keeps hn hkeeps honly
    obtain ⟨x, hx⟩ := Node.exists_property?_leaf r t mandatory v
    refine ⟨x, (hshows _ x).2 ⟨_, .refl, _, hlast, ?_⟩, Node.readOnly_of_property? hx⟩
    rwa [Strategy.property?_viewNode]
  · intro hagree x hx
    obtain ⟨s, hs, n, hlast, hproperty⟩ := (hshows _ x).1 hx
    obtain ⟨hmem, hname⟩ := Site.mem_of_lastNamed? hlast
    rw [Node.readOnly_of_property? hproperty]
    exact hagree j hj hkey s hs n hmem hname

/-- A container of operational data with a leaf of its own and one from a grouping. -/
def gauges : List (Module Declared) :=
  let text (name : String) (origin : Option String) : Node Declared :=
    .leaf ⟨name, none, none, none, origin⟩ .string false none
  [{ name := "net", xmlNamespace := none, abbreviation := none, revision := none
     description := none
     children := [.inner ⟨"state", none, some false, none, none⟩ (.container false) ["counters"]
       [text "hits" (some "counters"), text "uptime" none]]
     rpcs := []
     groupings := [⟨"counters", none, [text "hits" none], []⟩] }]

theorem exists_gauges : ∃ c g i, Context.resolve gauges = .ok c ∧ ofNames c ["net"] {} = .ok g ∧
    g.Visited i ∧ c.interiors = [i] ∧ ∃ r r', Node.flattenAll false i.children =
        [(.leaf r .string false none, true), (.leaf r' .string false none, false)] ∧
      i.parent.propertyName r = "hits" ∧ r.config = false ∧
      i.parent.propertyName r' = "uptime" ∧ r'.config = false := by
  exact ⟨_, _, _, rfl, rfl, ⟨_, List.mem_cons_self .., List.mem_cons_self ..⟩, rfl, _, _, rfl, rfl,
    rfl, rfl, rfl⟩

theorem apart_gauges {c : Context} (h : Context.resolve gauges = .ok c) : ∀ j ∈ c.interiors,
    ∀ a x, c.groupingAt? a = some x → j.head.definitionPath ≠ a.path := by
  have hspares : c.SparesGroupings := by
    cases h
    decide
  exact fun j hj a _ _ =>
    hspares.definitionPath_ne (fun _ hm => Context.placed_of_resolve h hm) hj a

theorem leaves_readOnly_gauges : ∃ c g i m x, Context.resolve gauges = .ok c ∧
    ofNames c ["net"] {} = .ok g ∧
    (({} : Config).strategy = .shared → ∀ j ∈ c.interiors, ∀ a x,
      c.groupingAt? a = some x → j.head.definitionPath ≠ a.path) ∧
    g.Visited i ∧ g.draft.document.definition? (g.modelName i.head) = some m ∧
    g.draft.document.Shows m "uptime" x ∧ x.readOnly := by
  obtain ⟨c, g, i, hresolve, hg, hi, honly, r, r', hchildren, hhits, -, huptime, hconfig⟩ :=
    exists_gauges
  have hapart := apart_gauges hresolve
  obtain ⟨m, hdef, -, hleaf⟩ := leaves_readOnly hg (fun _ => hapart) hi
  have huptime' : (Node.leaf r' .string false none, false) ∈ Node.flattenAll false i.children := by
    simp [hchildren]
  obtain ⟨x, hx, hreadOnly⟩ := (hleaf _ _ _ _ _ huptime').1
    (fun j hj _ => List.mem_singleton.1 (honly ▸ hj)) (.inr (.inr rfl)) (by
      simp [hchildren, Node.head, hhits, huptime])
  rw [huptime] at hx
  exact ⟨c, g, i, m, x, hresolve, hg, fun _ => hapart, hi, hdef, hx, by simp [hreadOnly, hconfig]⟩

/-- The leaf from the grouping is operational where it is copied to, but not where it is written, so
the container's definition shows it as one that can be written. -/
theorem hits_writable_gauges : ∃ c g i r m x, Context.resolve gauges = .ok c ∧ c.UsesExist ∧
    (∀ s, Site.Of c s → s.CopiesStand c) ∧ ofNames c ["net"] {} = .ok g ∧ g.Visited i ∧
    Node.leaf r .string false none ∈ Node.flat i.children ∧ i.parent.propertyName r = "hits" ∧
    r.config = false ∧ g.draft.document.definition? (g.modelName i.head) = some m ∧
    g.draft.document.Shows m "hits" x ∧ ¬ x.readOnly := by
  obtain ⟨c, g, i, hresolve, hg, hi, honly, r, r', hchildren, hhits, hconfig, -⟩ :=
    exists_gauges
  have hexist : c.UsesExist := by
    cases hresolve
    decide
  have hcopies : ∀ s, Site.Of c s → s.CopiesStand c := by
    cases hresolve
    exact Site.forall_of (by decide) (by decide)
  have hdrawn : ∀ j, c.interiors = [j] → ∃ t n x,
      ReflTransGen (Site.Draws c) (Strategy.shared.site j) t ∧ t.lastNamed? "hits" = some n ∧
        n.property? none = some (.scalar x) ∧ ¬ x.readOnly := by
    cases hresolve
    rintro _ ⟨⟩
    exact ⟨_, _, _, .single (.used (List.mem_cons_self ..) rfl), rfl, rfl, Bool.false_ne_true⟩
  obtain ⟨hcontext, hconf, hmodules⟩ := ofNames_fields hg
  obtain ⟨j, hj, -, m, hdef, hshows⟩ := shows_visited (g := g) (by rwa [hcontext])
    (by rw [hcontext]; exact fun _ => apart_gauges hresolve) hi
  rw [hcontext, honly, List.mem_singleton] at hj
  obtain rfl := hj
  obtain ⟨t, n, x, ht, hlast, hproperty, hwritable⟩ := hdrawn j honly
  have hx : g.draft.document.Shows m "hits" x := by
    refine (hshows _ x).2 ⟨t, ?_, n, hlast, hproperty⟩
    rw [hcontext, hconf]
    exact ht
  have hmem : Node.leaf r .string false none ∈ Node.flat j.children := by
    simp [Node.flat, hchildren]
  exact ⟨c, g, j, r, m, x, hresolve, hexist, hcopies, hg, hi, hmem, hhits, hconfig, hdef, hx,
    hwritable⟩

end Generator

end YangApi
