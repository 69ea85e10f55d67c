import YangApi.Proofs.Required
import YangApi.Proofs.Restconf.Items

/-! Required names are properties. A child adds its property whenever it adds its name to the
required ones, a later child of the same name replaces a property but removes none, and collapsing
aliases changes neither the names of properties nor the required ones. -/

namespace YangApi

namespace Plain

variable {m : Plain}

/-- The model has the properties that it requires, and requires none twice. -/
structure HasRequired (m : Plain) : Prop where
  nodup : m.required.Nodup
  keys : m.required ⊆ m.table.keys

theorem HasRequired.empty : ({} : Plain).HasRequired := ⟨List.nodup_nil, List.nil_subset _⟩

theorem HasRequired.addChild (h : m.HasRequired) (p : Parent) (n : Node Resolved)
    (definition : Option String) : (m.addChild p n definition).HasRequired := by
  cases hq : n.property? definition with
  | none =>
    unfold Plain.addChild
    rwa [hq]
  | some q =>
    have hkeys : (m.addChild p n definition).table.keys =
        Text.pushNew m.table.keys (p.propertyName n.head) := by
      rw [table_addChild hq, Table.keys_insert]
      rfl
    refine ⟨?_, fun k hk => ?_⟩
    · unfold Plain.addChild
      rw [hq]
      dsimp only
      split
      · exact Text.nodup_pushNew h.nodup _
      · exact h.nodup
    · rw [hkeys, Text.mem_pushNew]
      exact (mem_required_addChild.1 hk).imp (fun hk => h.keys hk) fun hnew => hnew.2.symm

theorem keys_retarget (a : AliasMap) (m : Plain) : (m.retarget a).table.keys = m.table.keys := by
  unfold retarget table
  cases m.properties with
  | none => rfl
  | some t => exact t.keys_map fun _ q => q.retarget a

theorem HasRequired.retarget (h : m.HasRequired) (a : AliasMap) : (m.retarget a).HasRequired :=
  ⟨h.nodup, (keys_retarget a m).symm ▸ h.keys⟩

end Plain

mutual

def Model.plains : Model → List Plain
  | .ref _ => []
  | .composed _ parts _ => Model.plainsAll parts
  | .plain m => [m]

def Model.plainsAll : List Model → List Plain
  | [] => []
  | x :: xs => x.plains ++ Model.plainsAll xs

end

theorem Model.plainsAll_eq (xs : List Model) : plainsAll xs = xs.flatMap plains := by
  induction xs with
  | nil => rfl
  | cons x xs ih => rw [plainsAll, List.flatMap_cons, ih]

mutual

theorem Model.plains_retarget (a : AliasMap) :
    ∀ x : Model, (x.retarget a).plains = x.plains.map (Plain.retarget a)
  | .ref _ => rfl
  | .composed _ parts _ => Model.plainsAll_retargetAll a parts
  | .plain _ => rfl

theorem Model.plainsAll_retargetAll (a : AliasMap) :
    ∀ xs : List Model, plainsAll (retargetAll a xs) = (plainsAll xs).map (Plain.retarget a)
  | [] => rfl
  | x :: xs => by
    rw [retargetAll, plainsAll, plainsAll, Model.plains_retarget a x,
      Model.plainsAll_retargetAll a xs, List.map_append]

end

mutual

theorem Model.plains_sort : ∀ x : Model, x.sort.plains.Perm x.plains
  | .ref _ => .refl _
  | .composed _ parts _ => by
    have hparts : (plainsAll (arrange (sortAll parts))).Perm (plainsAll (sortAll parts)) := by
      rw [plainsAll_eq, plainsAll_eq]
      exact (arrange_perm _).flatMap_right _
    exact hparts.trans (Model.plainsAll_sortAll parts)
  | .plain _ => .refl _

theorem Model.plainsAll_sortAll : ∀ xs : List Model, (plainsAll (sortAll xs)).Perm (plainsAll xs)
  | [] => .refl _
  | x :: xs => (Model.plains_sort x).append (Model.plainsAll_sortAll xs)

end

namespace Site

variable {c : Context} {name : SchemaPath → String}

theorem hasRequired_extend {p : Parent} {m : Plain} (h : m.HasRequired)
    (ns : List (Node Resolved)) : (extend name p m ns).HasRequired := by
  induction ns generalizing m with
  | nil => exact h
  | cons n ns ih => exact ih (h.addChild p n _)

/-- In the definition of a site, whatever its parts require is theirs. -/
theorem hasRequired_model {s : Site} {m : Plain} (hm : m ∈ (s.model c name).plains) :
    m.HasRequired := by
  have hown : (s.ownModel name).HasRequired := hasRequired_extend .empty _
  unfold model at hm
  dsimp only at hm
  split at hm
  · obtain rfl := List.mem_singleton.1 hm
    exact ⟨hown.nodup, hown.keys⟩
  · rw [Model.plains, Model.plainsAll_eq, List.flatMap_append, List.mem_append] at hm
    rcases hm with hm | hm
    · obtain ⟨x, hx, hm⟩ := List.mem_flatMap.1 hm
      obtain ⟨n, -, rfl⟩ := List.mem_map.1 hx
      cases hm
    · split at hm
      · cases hm
      · obtain rfl : m = s.ownModel name := by simpa [Model.plains] using hm
        exact hown

end Site

def Parameter.plains : Parameter → List Plain
  | .body b => b.schema.plains
  | .path _ => []

def Operation.plains (o : Operation) : List Plain := o.parameters.flatMap Parameter.plains

def Document.plains (d : Document) : List Plain :=
  d.table.values.flatMap Model.plains ++ d.operations.flatMap Operation.plains

theorem Operation.plains_retarget (a : AliasMap) (o : Operation) :
    (o.retarget a).plains = o.plains.map (Plain.retarget a) := by
  simp only [plains, retarget, List.flatMap_map, List.map_flatMap]
  refine List.flatMap_congr fun p _ => ?_
  cases p with
  | body b => exact b.schema.plains_retarget a
  | path p => rfl

namespace Restconf

variable {rules : List TagRule} {s : Segment} {definition : String} {m : Method}

theorem plains_base (rules : List TagRule) (m : Method) (s : Segment) :
    (base rules m s).plains = [] := by
  simp [base, Operation.plains, List.flatMap_map, Parameter.plains]

theorem plains_withBody (o : Operation) (name description : String) :
    (withBody o (body name definition description)).plains = o.plains := by
  simp [withBody, body, Operation.plains, Parameter.plains, Model.plains]

theorem DataOperation.plains {o : Operation} (h : DataOperation rules s definition m o) :
    o.plains = [] := by
  cases h with
  | get => exact plains_base rules .get s
  | put => exact (plains_withBody _ _ _).trans (plains_base rules .put s)
  | post => exact (plains_withBody _ _ _).trans (plains_base rules .post s)
  | delete => exact plains_base rules .delete s

theorem plains_invoke (r : Rpc Resolved) (input output : Option String) :
    (invoke rules s r input output).plains = [] := by
  cases input with
  | none => exact plains_base rules .post s
  | some name => exact (plains_withBody _ _ _).trans (plains_base rules .post s)

end Restconf

theorem Visit.plains_written? {rules : List TagRule} {nameOf : Resolved → String} {p : String}
    {m : Method} {moduleName : String} {v : Visit} {o : Operation}
    (h : v.written? rules nameOf p m moduleName = some o) : o.plains = [] := by
  cases v with
  | define i => cases h
  | path i s =>
    obtain ⟨-, h⟩ := Option.ite_none_right_eq_some.1 h
    exact (Restconf.dataOperation_of_get?_setData h).plains
  | rpc r s =>
    obtain ⟨-, h⟩ := Option.ite_none_right_eq_some.1 h
    obtain rfl := Option.some.inj h
    exact Restconf.plains_invoke ..

namespace Generator

theorem plains_operations_result (g : Generator) :
    g.result.operations.flatMap Operation.plains = [] := by
  refine List.flatMap_eq_nil_iff.2 fun o ho => ?_
  obtain ⟨p, m, hresult⟩ := Document.mem_operations.1 ho
  rw [operation?_result, operation?_draft_eq] at hresult
  obtain ⟨o', hlast, rfl⟩ := Option.map_eq_some_iff.1 hresult
  obtain ⟨v, -, hwritten⟩ := List.exists_of_findSome?_eq_some hlast
  rw [Operation.plains_retarget, Visit.plains_written? hwritten, List.map_nil]

theorem exists_definition_draft {g : Generator} {k : String} {x : Model}
    (h : g.result.table.get? k = some x) :
    ∃ y, g.draft.document.definition? k = some y ∧ x = (y.retarget g.aliases).sort := by
  have hcollapse := Document.get?_table_collapse { g.draft.document with info := g.info }
    g.config.collapseAliasChains k
  obtain ⟨-, h⟩ := Option.ite_none_left_eq_some.1 (hcollapse.symm.trans h)
  obtain ⟨y, hy, rfl⟩ := Option.map_eq_some_iff.1 h
  exact ⟨y, (Document.definition?_eq _ _).trans hy, rfl⟩

theorem hasRequired_result (g : Generator) : ∀ m ∈ g.result.plains, m.HasRequired := by
  intro m hm
  rw [Document.plains, plains_operations_result, List.append_nil] at hm
  obtain ⟨x, hx, hm⟩ := List.mem_flatMap.1 hm
  obtain ⟨k, hk⟩ := Table.mem_values.1 hx
  obtain ⟨y, hy, rfl⟩ := exists_definition_draft hk
  rw [(Model.plains_sort _).mem_iff, Model.plains_retarget] at hm
  obtain ⟨m', hm', rfl⟩ := List.mem_map.1 hm
  obtain ⟨s, -, -, rfl, -⟩ := written_draft (Site.Closed.all _) (fun _ _ => trivial) hy
  exact (Site.hasRequired_model hm').retarget _

/-- In a document, whatever a plain model requires is among its properties, each name once. -/
theorem required_properties (g : Generator) (hvalid : g.config.fault? = none) :
    ∃ d ws, g.generate = .ok (d, ws) ∧ ∀ m ∈ d.plains, m.HasRequired := by
  obtain ⟨ws, hws⟩ := generate_of_valid hvalid
  exact ⟨g.result, ws, hws, g.hasRequired_result⟩

theorem required_properties_shop : ∃ c g d ws m, Context.resolve shop = .ok c ∧
    ofNames c ["shop"] {} = .ok g ∧ g.generate = .ok (d, ws) ∧ m ∈ d.plains ∧
    m.required = ["id"] ∧ "id" ∈ m.table.keys := by
  obtain ⟨c, g, hresolve, hg⟩ := exists_run_shop {}
  obtain ⟨-, hconfig, -⟩ := ofNames_fields hg
  obtain ⟨d, ws, hgenerate, hall⟩ :=
    required_properties g (hconfig ▸ Config.fault?_of_choices ..)
  obtain ⟨m, hm, hrequired⟩ : ∃ m ∈ d.plains, m.required = ["id"] := by
    rw [result_of_generate hgenerate]
    cases hresolve
    cases hg
    decide +kernel
  exact ⟨c, g, d, ws, m, hresolve, hg, hgenerate, hm, hrequired,
    (hall m hm).keys (by simp [hrequired])⟩

end Generator

end YangApi
