import YangApi.Proofs.Definitions.Bare
import YangApi.Restconf

/-! The definitions that a document refers to, and where they come from: a site's definition names
the site's needs, and an operation names the definitions it was written for. -/

namespace YangApi

def Property.refs (p : Property) : List String := p.refName?.toList

def Plain.refs (m : Plain) : List String :=
  (m.properties.getD .empty).values.flatMap Property.refs

mutual

def Model.refs : Model → List String
  | .ref n => [n]
  | .composed _ parts interfaces => Model.refsAll parts ++ interfaces
  | .plain m => m.refs

def Model.refsAll : List Model → List String
  | [] => []
  | m :: ms => m.refs ++ Model.refsAll ms

end

def Parameter.refs : Parameter → List String
  | .body b => b.schema.refs
  | .path _ => []

def Response.refs (r : Response) : List String := r.schema.toList.flatMap Property.refs

/-- References in the bodies and in the responses of an operation. -/
def Operation.refs (o : Operation) : List String :=
  o.parameters.flatMap Parameter.refs ++ o.responses.values.flatMap Response.refs

namespace Document

def refs (d : Document) : List String :=
  d.table.values.flatMap Model.refs ++ d.operations.flatMap Operation.refs

/-- Every reference names a definition. -/
def Closed (d : Document) : Prop := ∀ n ∈ d.refs, d.hasDefinition n

theorem mem_refs {d : Document} {n : String} : n ∈ d.refs ↔
    (∃ k m, d.definition? k = some m ∧ n ∈ m.refs) ∨ ∃ o ∈ d.operations, n ∈ o.refs := by
  simp only [refs, List.mem_append, List.mem_flatMap, definition?_eq, Table.get?_eq_some_iff,
    Table.values, List.mem_map, Prod.exists, exists_eq_right]
  refine or_congr_left ⟨?_, ?_⟩
  · rintro ⟨m, ⟨k, hm⟩, hn⟩
    exact ⟨k, m, hm, hn⟩
  · rintro ⟨k, m, hm, hn⟩
    exact ⟨m, ⟨k, hm⟩, hn⟩

end Document

theorem Table.mem_values {α : Type} {t : Table α} {a : α} :
    a ∈ t.values ↔ ∃ k, t.get? k = some a := by
  simp [values, get?_eq_some_iff]

theorem Table.mem_values_upsert {α : Type} {t : Table α} {k : String} {f : Option α → α} {a : α}
    (h : a ∈ (t.upsert k f).values) : a = f (t.get? k) ∨ a ∈ t.values := by
  obtain ⟨j, hj⟩ := mem_values.1 h
  rw [get?_upsert] at hj
  split at hj
  · exact .inl (Option.some.inj hj).symm
  · exact .inr (mem_values.2 ⟨j, hj⟩)

theorem Model.refsAll_eq (ms : List Model) : refsAll ms = ms.flatMap refs := by
  induction ms with
  | nil => rfl
  | cons m ms ih => rw [refsAll, List.flatMap_cons, ih]

theorem Plain.refs_addProperty {m : Plain} {k : String} {p : Property} {n : String}
    (h : n ∈ (m.addProperty k p).refs) : n ∈ p.refs ∨ n ∈ m.refs := by
  obtain ⟨q, hq, hn⟩ := List.mem_flatMap.1 h
  rcases Table.mem_values_upsert hq with rfl | hq
  · exact .inl hn
  · exact .inr (List.mem_flatMap.2 ⟨q, hq, hn⟩)

theorem Node.refName?_property? (n : Node Resolved) (k : Option String) :
    (n.property? k).bind Property.refName? = if n.key?.isSome then k else none := by
  cases n with
  | inner r shape => cases shape <;> cases k <;> rfl
  | _ => rfl

theorem Plain.refs_addChild {m : Plain} {p : Parent} {n : Node Resolved} {k : Option String}
    {r : String} (h : r ∈ (m.addChild p n k).refs) :
    (n.key?.isSome ∧ k = some r) ∨ r ∈ m.refs := by
  unfold addChild at h
  cases hp : n.property? k with
  | none => exact .inr (by simpa [hp] using h)
  | some q =>
    simp only [hp] at h
    rcases refs_addProperty h with h | h
    · have href := n.refName?_property? k
      rw [hp, Option.bind_some, Option.mem_toList.1 h] at href
      split at href
      · next hkey => exact .inl ⟨hkey, href.symm⟩
      · cases href
    · by_cases hreq : p.requires n
      · simp only [hreq, if_true] at h
        exact .inr h
      · simp only [hreq] at h
        exact .inr h

namespace Site

variable {name : SchemaPath → String}

theorem refs_extend {p : Parent} {m : Plain} {ns : List (Node Resolved)} {r : String}
    (h : r ∈ (extend name p m ns).refs) :
    (∃ n ∈ ns, ∃ q, n.key? = some q ∧ name q = r) ∨ r ∈ m.refs := by
  induction ns generalizing m with
  | nil => exact .inr h
  | cons n ns ih =>
    rcases ih h with ⟨n', hn', hq⟩ | h
    · exact .inl ⟨n', List.mem_cons_of_mem _ hn', hq⟩
    · refine (Plain.refs_addChild h).imp_left fun ⟨_, hk⟩ => ?_
      obtain ⟨q, hq, hr⟩ := Option.map_eq_some_iff.1 hk
      exact ⟨n, List.mem_cons_self .., q, hq, hr⟩

/-- The definition of a site refers to what the site needs. -/
theorem refs_model {c : Context} {s : Site} {r : String} (h : r ∈ (s.model c name).refs) :
    ∃ p ∈ s.needs c, name p = r := by
  have hown : r ∈ (s.ownModel name).refs → ∃ p ∈ s.needs c, name p = r := by
    intro h
    rcases refs_extend h with ⟨n, hn, q, hq, hr⟩ | h
    · exact ⟨q, List.mem_append_right _ (List.mem_filterMap.2 ⟨n, hn, hq⟩), hr⟩
    · simp [Plain.refs, Table.values, Table.empty] at h
  have hparent : r ∈ (s.parents c).map name → ∃ p ∈ s.needs c, name p = r := by
    intro h
    obtain ⟨p, hp, hr⟩ := List.mem_map.1 h
    exact ⟨p, List.mem_append_left _ hp, hr⟩
  unfold model at h
  dsimp only at h
  split at h
  · exact hown h
  · simp only [Model.refs, Model.refsAll_eq, List.flatMap_append, List.mem_append] at h
    rcases h with (h | h) | h
    · refine hparent ?_
      obtain ⟨m, hm, hr⟩ := List.mem_flatMap.1 h
      obtain ⟨k, hk, rfl⟩ := List.mem_map.1 hm
      rwa [List.mem_singleton.1 hr]
    · refine hown ?_
      split at h
      · simp at h
      · simpa [Model.refs] using h
    · exact hparent h

end Site

theorem Table.mem_values_ofList {α : Type} {es : List (String × α)} {a : α}
    (h : a ∈ (Table.ofList es).values) : a ∈ es.map Prod.snd := by
  have hfold : ∀ (es : List (String × α)) (t : Table α),
      a ∈ (es.foldl (fun t e => t.insert e.1 e.2) t).values → a ∈ es.map Prod.snd ∨ a ∈ t.values := by
    intro es
    induction es with
    | nil => exact fun t h => .inr h
    | cons e es ih =>
      intro t h
      rcases ih _ h with h | h
      · exact .inl (List.mem_cons_of_mem _ h)
      · exact (mem_values_upsert h).imp (fun e => List.mem_cons.2 (.inl e)) id
  exact (hfold es .empty h).resolve_right (by simp [values, empty])

namespace PathItem

theorem get?_set (i : PathItem) (m m' : Method) (o : Operation) :
    (i.set m o).get? m' = if m' = m then some o else i.get? m' := by
  cases m <;> cases m' <;> rfl

theorem mem_operations {i : PathItem} {m : Method} {o : Operation} :
    (m, o) ∈ i.operations ↔ i.get? m = some o := by
  have hall : m ∈ Method.all := by cases m <;> simp [Method.all]
  simp only [operations, List.mem_filterMap, Option.map_eq_some_iff, Prod.mk.injEq]
  constructor
  · rintro ⟨_, -, _, h, rfl, rfl⟩
    exact h
  · intro h
    exact ⟨m, hall, o, h, rfl, rfl⟩

end PathItem

namespace Restconf

variable {rules : List TagRule} {s : Segment} {definition r : String}

theorem refs_responses {rs : List (String × Response)} (h : r ∈ (responses rs).values.flatMap Response.refs) :
    ∃ e ∈ rs, r ∈ e.2.refs := by
  obtain ⟨a, ha, hr⟩ := List.mem_flatMap.1 h
  obtain ⟨e, he, rfl⟩ := List.mem_map.1 (Table.mem_values_ofList ha)
  exact ⟨e, he, hr⟩

theorem refs_base (rules : List TagRule) (m : Method) (s : Segment) :
    (base rules m s).parameters.flatMap Parameter.refs = [] := by
  simp [base, Parameter.refs]

theorem refs_getData (h : r ∈ (getData rules s definition).refs) : r = definition := by
  rcases List.mem_append.1 h with h | h
  · have hnone := refs_base rules .get s
    exact absurd (hnone ▸ h) List.not_mem_nil
  · obtain ⟨e, he, hr⟩ := refs_responses h
    simp only [List.mem_cons, List.not_mem_nil, or_false] at he
    rcases he with rfl | rfl
    · simpa [Response.refs, returning, Property.refs, Property.refName?, eq_comm] using hr
    · simp [Response.refs] at hr

theorem refs_withBody {rules : List TagRule} {m : Method} {s : Segment} {name text : String}
    (h : r ∈ (withBody (base rules m s) (body name definition text)).parameters.flatMap Parameter.refs) :
    r = definition := by
  rw [withBody, List.flatMap_append, refs_base, List.nil_append] at h
  simpa [body, Parameter.refs, Model.refs] using h

theorem refs_written {m : Method} {name text : String} {rs : List (String × Response)}
    (hrs : ∀ e ∈ rs, e.2.schema = none)
    (h : r ∈ (withBody (base rules m s) (body name definition text)).parameters.flatMap
      Parameter.refs ++ (responses rs).values.flatMap Response.refs) : r = definition := by
  rcases List.mem_append.1 h with h | h
  · exact refs_withBody h
  · obtain ⟨e, he, hr⟩ := refs_responses h
    simp [Response.refs, hrs e he] at hr

theorem refs_putData (h : r ∈ (putData rules s definition).refs) : r = definition :=
  refs_written (by simp) h

theorem refs_postData (h : r ∈ (postData rules s definition).refs) : r = definition :=
  refs_written (by simp) h

theorem refs_deleteData : (deleteData rules s definition).refs = [] := by
  refine List.eq_nil_iff_forall_not_mem.2 fun r h => ?_
  rcases List.mem_append.1 h with h | h
  · have hnone := refs_base rules .delete s
    exact absurd (hnone ▸ h) List.not_mem_nil
  · obtain ⟨e, he, hr⟩ := refs_responses h
    obtain rfl := List.mem_singleton.1 he
    simp [Response.refs] at hr

theorem refs_invoke {p : Rpc Resolved} {input output : Option String}
    (h : r ∈ (invoke rules s p input output).refs) : input = some r ∨ output = some r := by
  rcases List.mem_append.1 h with h | h
  · left
    cases input with
    | none =>
      have hnone := refs_base rules .post s
      exact absurd (hnone ▸ h) List.not_mem_nil
    | some name => exact congrArg some (refs_withBody h).symm
  · right
    obtain ⟨e, he, hr⟩ := refs_responses h
    obtain rfl := List.mem_singleton.1 he
    cases output with
    | none => simp [Response.refs] at hr
    | some name =>
      simp only [returning, Response.refs, Property.refs, Property.refName?, Option.toList_some,
        List.flatMap_cons, List.flatMap_nil, List.append_nil, List.mem_singleton] at hr
      exact congrArg some hr.symm

end Restconf

end YangApi
