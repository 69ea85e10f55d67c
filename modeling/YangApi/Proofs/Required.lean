import YangApi.Proofs.Definitions.Parts

/-! What definitions require. A site demands the leaves that must be given or are its keys, as far as
they stand in its own definition, and what the groupings demand that it uses. A grouping has no keys,
so the key of a list that shares groupings is required only if the list says it itself. -/

namespace YangApi

open Draft Relation

/-- The properties that a definition requires, its parts included and references followed. -/
inductive Document.Requires (d : Document) : Model → String → Prop
  | own {m : Plain} {k : String} (h : k ∈ m.required) : Requires d (.plain m) k
  | part {x : Option String} {parts : List Model} {interfaces : List String} {p : Model} {k : String}
    (hp : p ∈ parts) (h : Requires d p k) : Requires d (.composed x parts interfaces) k
  | ref {n : String} {m : Model} {k : String} (hn : d.definition? n = some m)
    (h : Requires d m k) : Requires d (.ref n) k

/-- Requirements are those of the plain models that a definition holds. -/
theorem Document.requires_iff_holds {d : Document} {x : Model} {k : String} :
    d.Requires x k ↔ ∃ m, d.Holds x m ∧ k ∈ m.required := by
  constructor
  · intro h
    induction h with
    | own hk => exact ⟨_, .own, hk⟩
    | part hp _ ih => exact ih.imp fun m hm => ⟨.part hp hm.1, hm.2⟩
    | ref hn _ ih => exact ih.imp fun m hm => ⟨.ref hn hm.1, hm.2⟩
  · rintro ⟨m, hm, hk⟩
    induction hm with
    | own => exact .own hk
    | part hp _ ih => exact .part hp (ih hk)
    | ref hn _ ih => exact .ref hn (ih hk)

theorem Parent.not_requires {p : Parent} {n : Node Resolved} {definition : Option String}
    (h : n.property? definition = none) : ¬ p.requires n := by
  cases n with
  | leaf => cases h
  | inner | choice | leafList | anyxml => exact Bool.false_ne_true

theorem Plain.mem_required_addChild {m : Plain} {p : Parent} {n : Node Resolved}
    {definition : Option String} {k : String} : k ∈ (m.addChild p n definition).required ↔
      k ∈ m.required ∨ (p.requires n ∧ p.propertyName n.head = k) := by
  unfold addChild
  cases hq : n.property? definition with
  | none => simp [Parent.not_requires hq]
  | some q =>
    by_cases hreq : p.requires n
    · by_cases hin : p.propertyName n.head ∈ m.required
      · simp only [hreq, if_true, addProperty, addRequired, hin, true_and]
        refine ⟨.inl, fun h => h.elim id ?_⟩
        rintro rfl
        exact hin
      · simp [hreq, addProperty, addRequired, hin, eq_comm]
    · simp [hreq, addProperty]

def Node.kindName : Node Resolved → String
  | .inner _ (.container _) _ _ => "container"
  | .inner _ (.list _) _ _ => "list"
  | .choice .. => "choice"
  | .leaf .. => "leaf"
  | .leafList .. => "leaf-list"
  | .anyxml .. => "anyxml"

namespace Site

variable {c : Context} {name : SchemaPath → String} {s : Site} {k : String}

theorem mem_required_extend {p : Parent} {m : Plain} {ns : List (Node Resolved)} :
    k ∈ (extend name p m ns).required ↔
      k ∈ m.required ∨ ∃ n ∈ ns, p.requires n ∧ p.propertyName n.head = k := by
  induction ns generalizing m with
  | nil => simp [extend]
  | cons n ns ih =>
    refine ih.trans ?_
    rw [Plain.mem_required_addChild, or_assoc]
    simp only [List.mem_cons, exists_eq_or_imp]

theorem mem_required_ownModel : k ∈ (s.ownModel name).required ↔
    ∃ n ∈ s.own, s.source.parent.requires n ∧ s.source.parent.propertyName n.head = k := by
  refine mem_required_extend.trans ?_
  simp

theorem required_of_isEmpty (h : (s.ownModel name).isEmpty) : k ∉ (s.ownModel name).required := by
  intro hk
  obtain ⟨n, hn, -, hname⟩ := mem_required_ownModel.1 hk
  have hkey : k ∈ (s.ownModel name).table.keys := mem_keys_ownModel.2 ⟨n, hn, hname⟩
  rw [Plain.keys_of_isEmpty h] at hkey
  exact List.not_mem_nil hkey

/-- What the definition of a site comes to require. -/
inductive Demands (c : Context) : Site → String → Prop
  | own {s : Site} {n : Node Resolved} (hn : n ∈ s.own) (hreq : s.source.parent.requires n) :
    Demands c s (s.source.parent.propertyName n.head)
  | used {s : Site} {u k : String} {x : Grouping Resolved} (hu : u ∈ s.source.uses)
    (hx : c.groupingAt? (.read u s.source.owner) = some x)
    (h : Demands c (.ofGrouping (.read u s.source.owner) x) k) : Demands c s k

/-- What is demanded stands in some site of the context, where it must be given or is a key. -/
theorem Demands.exists_own (h : s.Demands c k) (hs : Site.Of c s) : ∃ t, Site.Of c t ∧
    ∃ n ∈ t.own, t.source.parent.requires n ∧ t.source.parent.propertyName n.head = k := by
  induction h with
  | own hn hreq => exact ⟨_, hs, _, hn, hreq, rfl⟩
  | used hu hx h ih => exact ih (.grouping _ _ hx)

/-- A copy stands, by its name and kind, in a grouping that is used where the copy is. -/
def CopiesStand (c : Context) (s : Site) : Prop :=
  ∀ e ∈ Node.flattenAll false s.children, e.2 → ∃ u ∈ s.source.uses,
    ∃ x ∈ c.groupingAt? (.read u s.source.owner), ∃ n ∈ Node.flat x.children,
      n.head.name = e.1.head.name ∧ n.kindName = e.1.kindName

instance (c : Context) (s : Site) : Decidable (s.CopiesStand c) :=
  inferInstanceAs (Decidable (∀ e ∈ Node.flattenAll false s.children, _))

/-- What a site demands is required by the own model of some site that it draws on. -/
theorem demands_iff (name : SchemaPath → String) : s.Demands c k ↔
    ∃ t, ReflTransGen (Draws c) s t ∧ k ∈ (t.ownModel name).required := by
  simp only [mem_required_ownModel]
  constructor
  · intro h
    induction h with
    | own hn hreq => exact ⟨_, .refl, _, hn, hreq, rfl⟩
    | used hu hx _ ih =>
      obtain ⟨t, ht, hk⟩ := ih
      exact ⟨t, .head (.used hu hx) ht, hk⟩
  · rintro ⟨t, ht, n, hn, hreq, rfl⟩
    induction ht using ReflTransGen.head_induction_on with
    | refl => exact .own hn hreq
    | head hdraws _ ih =>
      cases hdraws with
      | used hu hx => exact .used hu hx ih

/-- A definition requires what its site demands, and nothing else. -/
theorem requires_model {settled : SchemaPath → Prop} {d : Document}
    (hdefined : GroupingsDefined c name settled d) (hsettled : ∀ q ∈ s.parents c, settled q) :
    d.Requires (s.model c name) k ↔ s.Demands c k := by
  rw [Document.requires_iff_holds, demands_iff name]
  exact exists_holds_model hdefined hsettled (fun _ _ => Iff.rfl) fun t => required_of_isEmpty

end Site

namespace Strategy

/-- What a node's definition rests on when it is found by its key: the nodes with the same key
demand the same, and shared groupings are defined where no node is. -/
structure Tells (s : Strategy) (c : Context) (i : Interior) : Prop where
  same : ∀ j ∈ c.interiors, s.key j.head = s.key i.head → ∀ k,
    (s.site j).Demands c k ↔ (s.site i).Demands c k
  groupings : s = .shared → ∀ j ∈ c.interiors, ∀ a x, c.groupingAt? a = some x →
    j.head.definitionPath ≠ a.path

theorem Tells.of_nodup {s : Strategy} {c : Context} {i : Interior}
    (hkeys : (c.interiors.map fun j => s.key j.head).Nodup) (hspares : c.SparesGroupings)
    (hplaced : ∀ m ∈ c.modules, m.Placed) (hi : i ∈ c.interiors) : s.Tells c i where
  same j hj he k := by
    obtain rfl := List.inj_on_of_nodup_map hkeys hj hi he
    rfl
  groupings _ _ hj a _ _ := hspares.definitionPath_ne hplaced hj a

/-- Whether a child stands in the node's own definition: all do when nothing is shared or no grouping
is used, else those that no grouping brought. -/
def Keeps (s : Strategy) (i : Interior) (copied : Bool) : Prop :=
  s = .unpacked ∨ i.uses = [] ∨ copied = false

def viewNode : Strategy → Node Resolved → Node Resolved
  | .shared, n => n
  | .unpacked, n => n.bare

theorem parent_site (s : Strategy) (i : Interior) : (s.site i).source.parent = i.parent := by
  cases s <;> rfl

theorem propertyName_viewNode (s : Strategy) (p : Parent) (n : Node Resolved) :
    p.propertyName (s.viewNode n).head = p.propertyName n.head := by
  cases s with
  | shared => rfl
  | unpacked => exact Node.propertyName_bare p n

theorem requires_viewNode (s : Strategy) (p : Parent) (n : Node Resolved) :
    p.requires (s.viewNode n) = p.requires n := by
  cases s with
  | shared => rfl
  | unpacked => cases n <;> rfl

theorem own_shared (i : Interior) :
    (shared.site i).own = Node.kept (!i.uses.isEmpty) (Node.flattenAll false i.children) := rfl

/-- What a node says itself stands among its site's own children. -/
theorem mem_own_of_keeps {s : Strategy} {i : Interior} {n : Node Resolved} {copied : Bool}
    (hn : (n, copied) ∈ Node.flattenAll false i.children) (hkeeps : s.Keeps i copied) :
    s.viewNode n ∈ (s.site i).own := by
  cases s with
  | shared =>
    rw [own_shared]
    refine List.mem_map.2 ⟨(n, copied), List.mem_filter.2 ⟨hn, ?_⟩, rfl⟩
    rcases hkeeps with h | huses | hcopied
    · cases h
    · simp [huses]
    · simp [hcopied]
  | unpacked =>
    rw [own_unpacked]
    exact List.mem_map_of_mem (Node.mem_flat_of_mem_flattenAll hn)

theorem demands_of_keeps {s : Strategy} (c : Context) {i : Interior} {n : Node Resolved}
    {copied : Bool} (hn : (n, copied) ∈ Node.flattenAll false i.children)
    (hkeeps : s.Keeps i copied) (hreq : i.parent.requires n) :
    (s.site i).Demands c (i.parent.propertyName n.head) := by
  rw [← s.propertyName_viewNode, ← s.parent_site]
  refine .own (mem_own_of_keeps hn hkeeps) ?_
  rwa [s.parent_site, s.requires_viewNode]

end Strategy

namespace Generator

variable {g : Generator} {i : Interior}

/-- Some node with the same key wrote the definition, and it requires what that one demands. -/
theorem requires_visited (hmodules : ∀ m ∈ g.modules, m ∈ g.context.modules)
    (htells : g.config.strategy.Tells g.context i) (hi : g.Visited i) :
    ∃ m, g.draft.document.definition? (g.modelName i.head) = some m ∧ ∀ k,
      g.draft.document.Requires m k ↔ (g.config.strategy.site i).Demands g.context k := by
  obtain ⟨j, hj, hkey, hdef, settled, hdefined, hparents⟩ :=
    definition?_visited hmodules htells.groupings hi
  exact ⟨_, hdef, fun k =>
    (Site.requires_model hdefined hparents).trans (htells.same j hj hkey k)⟩

/-- What the definition of a visited node requires, its parts included and references followed, is
what the node demands with the groupings that it shares. Every key that is a leaf of the node's own
is among it; a key that a shared grouping brought is, if that grouping demands it. -/
theorem keys_required {c : Context} {names : List String} {config : Config} {g : Generator}
    (hg : ofNames c names config = .ok g) {i : Interior} (hi : g.Visited i)
    (htells : config.strategy.Tells c i) :
    ∃ m, g.draft.document.definition? (g.modelName i.head) = some m ∧
      (∀ k, g.draft.document.Requires m k ↔ (config.strategy.site i).Demands c k) ∧
      ∀ r t mandatory v copied,
        (Node.leaf r t mandatory v, copied) ∈ Node.flattenAll false i.children →
        r.name ∈ i.shape.keys → config.strategy.Keeps i copied →
        g.draft.document.Requires m (i.parent.propertyName r) := by
  obtain ⟨rfl, rfl, hmodules⟩ := ofNames_fields hg
  obtain ⟨m, hdef, hrequires⟩ := requires_visited hmodules htells hi
  refine ⟨m, hdef, hrequires, fun r t mandatory v copied hn hkey hkeeps => ?_⟩
  have hreq : i.parent.requires (.leaf r t mandatory v) := by
    simp [Parent.requires, Interior.parent, hkey]
  exact (hrequires _).2 (Strategy.demands_of_keeps _ hn hkeeps hreq)

theorem keys_required_shop : ∃ c g i m, Context.resolve shop = .ok c ∧
    ofNames c ["shop"] {} = .ok g ∧ g.Visited i ∧ Strategy.shared.Tells c i ∧
    i.shape = .list ["id"] ∧ i.uses = ["address"] ∧
    g.draft.document.definition? (g.modelName i.head) = some m ∧
    g.draft.document.Requires m "id" ∧ ¬ g.draft.document.Requires m "town" := by
  obtain ⟨c, g, hresolve, hg⟩ := exists_run_shop {}
  obtain ⟨i, hi, hshape, huses, r, t, v, hleaf, hname, hproperty⟩ : ∃ i, g.Visited i ∧
      i.shape = .list ["id"] ∧ i.uses = ["address"] ∧
      ∃ r t v, (Node.leaf r t false v, false) ∈ Node.flattenAll false i.children ∧
        r.name = "id" ∧ i.parent.propertyName r = "id" := by
    cases hresolve
    cases hg
    exact ⟨_, ⟨_, List.mem_cons_self .., List.mem_cons_self ..⟩, rfl, rfl, _, _, _,
      List.mem_cons_self .., rfl, rfl⟩
  obtain ⟨-, -, hmodules⟩ := ofNames_fields hg
  have hmem : i ∈ c.interiors := hi.mem_interiors hmodules
  have htells : Strategy.shared.Tells c i := by
    refine .of_nodup ?_ ?_ (fun m hm => Context.placed_of_resolve hresolve hm) hmem
    all_goals
      cases hresolve
      decide
  have htown : ∀ s, Site.Of c s → ∀ n ∈ s.own, s.source.parent.requires n →
      s.source.parent.propertyName n.head ≠ "town" := by
    cases hresolve
    exact Site.forall_of (by decide) (by decide)
  obtain ⟨m, hdef, hrequires, hown⟩ := keys_required hg hi htells
  have hid : g.draft.document.Requires m "id" := by
    rw [← hproperty]
    exact hown r t false v false hleaf (by simp [hname, hshape, Shape.keys]) (.inr (.inr rfl))
  refine ⟨c, g, i, m, hresolve, hg, hi, htells, hshape, huses, hdef, hid, fun h => ?_⟩
  obtain ⟨s, hs, n, hn, hreq, hk⟩ := ((hrequires _).1 h).exists_own (.interior i hmem)
  exact htown s hs n hn hreq hk

/-- A list whose key comes from the grouping that it uses. -/
def ports : List (Module Declared) :=
  let text (name : String) (origin : Option String) : Node Declared :=
    .leaf ⟨name, none, none, none, origin⟩ .string false none
  [{ name := "net", xmlNamespace := none, abbreviation := none, revision := none
     description := none
     children := [.inner ⟨"port", none, none, none, none⟩ (.list ["name"]) ["named"]
       [text "name" (some "named"), text "speed" none]]
     rpcs := []
     groupings := [⟨"named", none, [text "name" none], []⟩] }]

/-- Such a key is not required, for the grouping's definition is made without the keys of the lists
that use it, and the list's own part leaves out what the grouping brought. -/
theorem key_lost_ports : ∃ c g i m, Context.resolve ports = .ok c ∧ c.UsesExist ∧
    (∀ s, Site.Of c s → s.CopiesStand c) ∧ ofNames c ["net"] {} = .ok g ∧ g.Visited i ∧
    i.shape = .list ["name"] ∧
    (∃ r t v, Node.leaf r t false v ∈ Node.flat i.children ∧ r.name = "name" ∧
      i.parent.propertyName r = "name") ∧
    g.draft.document.definition? (g.modelName i.head) = some m ∧
    ¬ g.draft.document.Requires m "name" := by
  obtain ⟨c, g, hresolve, hg⟩ : ∃ c g, Context.resolve ports = .ok c ∧
      ofNames c ["net"] {} = .ok g := ⟨_, _, rfl, rfl⟩
  have huses : c.UsesExist := by
    cases hresolve
    decide
  have hcopies : ∀ s, Site.Of c s → s.CopiesStand c := by
    cases hresolve
    exact Site.forall_of (by decide) (by decide)
  obtain ⟨hcontext, hconfig, hmodules⟩ := ofNames_fields hg
  obtain ⟨i, hi, hshape, hleaf⟩ : ∃ i, g.Visited i ∧ i.shape = .list ["name"] ∧
      ∃ r t v, Node.leaf r t false v ∈ Node.flat i.children ∧ r.name = "name" ∧
        i.parent.propertyName r = "name" := by
    cases hresolve
    cases hg
    exact ⟨_, ⟨_, List.mem_cons_self .., List.mem_cons_self ..⟩, rfl, _, _, _,
      List.mem_cons_self .., rfl, rfl⟩
  have hmem : i ∈ c.interiors := hi.mem_interiors hmodules
  have htells : g.config.strategy.Tells g.context i := by
    rw [hcontext, hconfig]
    refine .of_nodup ?_ ?_ (fun m hm => Context.placed_of_resolve hresolve hm) hmem
    all_goals
      cases hresolve
      decide
  have hnone : ∀ s, Site.Of c s → ∀ n ∈ s.own, ¬ s.source.parent.requires n := by
    cases hresolve
    exact Site.forall_of (by decide) (by decide)
  obtain ⟨m, hdef, hrequires⟩ := requires_visited (hcontext ▸ hmodules) htells hi
  refine ⟨c, g, i, m, hresolve, huses, hcopies, hg, hi, hshape, hleaf, hdef, fun h => ?_⟩
  have hdemands := (hrequires "name").1 h
  rw [hcontext, hconfig] at hdemands
  obtain ⟨s, hs, n, hn, hreq, -⟩ := hdemands.exists_own (.interior i hmem)
  exact hnone s hs n hn hreq

end Generator

end YangApi
