import Mathlib.Data.List.Forall2
import YangApi.Proofs.Definitions.Bare
import YangApi.Text

/-! What stands in the definition of a site: one property for each child that it keeps, in order as
long as no two of them have the same name, and the names that are required. -/

namespace YangApi

/-- The property of a child by its kind, when a container or list is defined under `nameOf`. -/
inductive Node.Describes (nameOf : Resolved → String) : Node Resolved → Property → Prop
  | leaf (r : Resolved) (t : LeafType) (m : Bool) (v : Option String) :
    Describes nameOf (.leaf r t m v)
      (.scalar { t.scalar with description := r.description, default := v, readOnly := !r.config })
  | leafList (r : Resolved) (t : LeafType) :
    Describes nameOf (.leafList r t)
      (.array (.scalar { t.scalar with readOnly := !r.config }) r.description)
  | container (r : Resolved) (presence : Bool) (uses : List String) (cs : List (Node Resolved)) :
    Describes nameOf (.inner r (.container presence) uses cs) (.ref (nameOf r) r.description)
  | list (r : Resolved) (keys uses : List String) (cs : List (Node Resolved)) :
    Describes nameOf (.inner r (.list keys) uses cs) (.array (.ref (nameOf r) none) r.description)
  | anyxml (r : Resolved) : Describes nameOf (.anyxml r) (.scalar { type := "object" })

namespace Node

def isData : Node Resolved → Bool
  | .choice .. => false
  | _ => true

theorem isData_of_mem_flat {n : Node Resolved} {ns : List (Node Resolved)} (h : n ∈ flat ns) :
    n.isData := by
  induction ns using Node.levels with
  | nil => simp [flat, flattenAll] at h
  | cons m ns ihm ihns =>
    rw [flat_cons, List.mem_append] at h
    exact h.elim ihm ihns
  | choice r ks ih =>
    rw [flat_choice, List.mem_flatMap] at h
    obtain ⟨k, hk, h⟩ := h
    exact ih k hk h
  | inner | leaf | leafList | anyxml =>
    simp only [flat, flattenAll_singleton, flatten, List.map_cons, List.map_nil,
      List.mem_singleton] at h
    simp [h, isData]

theorem isData_bare (n : Node Resolved) : n.bare.isData = n.isData := by
  cases n <;> rfl

theorem property?_isSome (name : SchemaPath → String) {n : Node Resolved} (h : n.isData) :
    (n.property? (n.key?.map name)).isSome := by
  cases n with
  | inner r shape => cases shape <;> rfl
  | choice => cases h
  | _ => rfl

theorem Describes.congr {f f' : Resolved → String} {n : Node Resolved} {p : Property}
    (h : n.Describes f p) (heq : ∀ j, n.interior? = some j → f j.head = f' j.head) :
    n.Describes f' p := by
  cases h with
  | leaf r t m v => exact .leaf r t m v
  | leafList r t => exact .leafList r t
  | anyxml r => exact .anyxml r
  | container r presence uses cs =>
    rw [heq ⟨r, .container presence, uses, cs⟩ rfl]
    exact .container r presence uses cs
  | list r keys uses cs =>
    rw [heq ⟨r, .list keys, uses, cs⟩ rfl]
    exact .list r keys uses cs

theorem describes_of_property?_bare {name : SchemaPath → String} {n : Node Resolved} {p : Property}
    (h : n.bare.property? (n.bare.key?.map name) = some p) :
    n.Describes (fun r => name r.path) p := by
  cases n with
  | inner r shape uses cs =>
    cases shape with
    | container presence =>
      cases h
      exact .container r presence uses cs
    | list keys =>
      cases h
      exact .list r keys uses cs
  | choice => cases h
  | leaf r t m v =>
    cases h
    exact .leaf r t m v
  | leafList r t =>
    cases h
    exact .leafList r t
  | anyxml r =>
    cases h
    exact .anyxml r

end Node

def Plain.table (m : Plain) : Table Property := m.properties.getD .empty

namespace Plain

variable {m : Plain} {p : Parent} {n : Node Resolved} {k : Option String}

theorem table_addChild {q : Property} (h : n.property? k = some q) :
    (m.addChild p n k).table = m.table.insert (p.propertyName n.head) q := by
  unfold addChild
  rw [h]
  by_cases hreq : p.requires n <;> simp [hreq, addProperty, addRequired, table]

theorem required_addChild {q : Property} (h : n.property? k = some q)
    (hnew : p.propertyName n.head ∉ m.required) :
    (m.addChild p n k).required =
      m.required ++ if p.requires n then [p.propertyName n.head] else [] := by
  unfold addChild
  rw [h]
  by_cases hreq : p.requires n <;> simp [hreq, addProperty, addRequired, hnew]

theorem type_addChild : (m.addChild p n k).type = m.type := by
  unfold addChild
  cases n.property? k with
  | none => rfl
  | some q => by_cases hreq : p.requires n <;> simp [hreq, addProperty, addRequired]

end Plain

namespace Site

variable {name : SchemaPath → String} {p : Parent}

/-- A child and its property, under the child's name. -/
def Entry (name : SchemaPath → String) (p : Parent) (n : Node Resolved) (e : String × Property) :
    Prop :=
  e.1 = p.propertyName n.head ∧ n.property? (n.key?.map name) = some e.2

theorem type_extend (m : Plain) (ns : List (Node Resolved)) : (extend name p m ns).type = m.type := by
  induction ns generalizing m with
  | nil => rfl
  | cons n ns ih => exact (ih _).trans Plain.type_addChild

/-- The names of the result are those that were there and those of the added children, each of them
where it came first. -/
theorem keys_extend {m : Plain} {ns : List (Node Resolved)} (hdata : ∀ n ∈ ns, n.isData) :
    (extend name p m ns).table.keys =
      (ns.map fun n => p.propertyName n.head).foldl Text.pushNew m.table.keys := by
  induction ns generalizing m with
  | nil => rfl
  | cons n ns ih =>
    rw [List.forall_mem_cons] at hdata
    obtain ⟨q, hq⟩ := Option.isSome_iff_exists.1 (Node.property?_isSome name hdata.1)
    refine (ih hdata.2).trans ?_
    rw [Plain.table_addChild hq, Table.keys_insert]
    rfl

theorem mem_keys_extend {m : Plain} {ns : List (Node Resolved)} (hdata : ∀ n ∈ ns, n.isData)
    {k : String} : k ∈ (extend name p m ns).table.keys ↔
      k ∈ m.table.keys ∨ ∃ n ∈ ns, p.propertyName n.head = k := by
  rw [keys_extend hdata, Text.mem_foldl_pushNew, List.mem_map]

/-- Children with different names, none of which is taken, are added in order. -/
theorem extend_spec (name : SchemaPath → String) (p : Parent) (m : Plain)
    {ns : List (Node Resolved)} (hdata : ∀ n ∈ ns, n.isData)
    (hnodup : (ns.map fun n => p.propertyName n.head).Nodup)
    (hkeys : ∀ n ∈ ns, p.propertyName n.head ∉ m.table.keys)
    (hrequired : ∀ n ∈ ns, p.propertyName n.head ∉ m.required) :
    (∃ es, (extend name p m ns).table.entries = m.table.entries ++ es ∧
      List.Forall₂ (Entry name p) ns es) ∧
    (extend name p m ns).required =
      m.required ++ (ns.filter p.requires).map fun n => p.propertyName n.head := by
  induction ns generalizing m with
  | nil => exact ⟨⟨[], by simp [extend], .nil⟩, by simp [extend]⟩
  | cons n ns ih =>
    rw [List.forall_mem_cons] at hdata hkeys hrequired
    rw [List.map_cons, List.nodup_cons] at hnodup
    have hother : ∀ n' ∈ ns, p.propertyName n'.head ≠ p.propertyName n.head := by
      intro n' hn' e
      exact hnodup.1 (List.mem_map.2 ⟨n', hn', e⟩)
    obtain ⟨q, hq⟩ := Option.isSome_iff_exists.1 (Node.property?_isSome name hdata.1)
    have htable := Plain.table_addChild (m := m) (p := p) hq
    have hreq := Plain.required_addChild (p := p) hq hrequired.1
    obtain ⟨⟨es, hes, hentries⟩, hreq'⟩ := ih (m.addChild p n (n.key?.map name)) hdata.2 hnodup.2
      (fun n' hn' hin => by
        rw [htable, Table.keys_insert, if_neg hkeys.1, List.mem_append, List.mem_singleton] at hin
        exact hin.elim (hkeys.2 n' hn') (hother n' hn'))
      (fun n' hn' hin => by
        rw [hreq, List.mem_append] at hin
        refine hin.elim (hrequired.2 n' hn') fun hin => ?_
        split at hin
        · exact hother n' hn' (List.mem_singleton.1 hin)
        · exact absurd hin List.not_mem_nil)
    refine ⟨⟨(p.propertyName n.head, q) :: es, ?_, .cons ⟨rfl, hq⟩ hentries⟩, ?_⟩
    · refine hes.trans ?_
      rw [htable, Table.entries_insert_of_notMem hkeys.1, List.append_assoc, List.singleton_append]
    · refine hreq'.trans ?_
      rw [hreq, List.append_assoc, List.filter_cons]
      split <;> simp

end Site

namespace Interior

def parent (i : Interior) : Parent := ⟨i.head.owner, i.shape.keys⟩

def propertyNames (i : Interior) : List String :=
  (Node.flat i.children).map fun n => i.parent.propertyName n.head

/-- `m` writes out the container or list: one property a child, in order, and the children that are
required. -/
structure WrittenOut (nameOf : Resolved → String) (i : Interior) (m : Plain) : Prop where
  type : m.type = "object"
  description : m.description = i.head.description
  properties : List.Forall₂
    (fun n e => e.1 = i.parent.propertyName n.head ∧ n.Describes nameOf e.2)
    (Node.flat i.children) m.table.entries
  required : m.required =
    ((Node.flat i.children).filter i.parent.requires).map fun n => i.parent.propertyName n.head

/-- What a strategy that shares nothing writes, when no two children have the same name. -/
theorem writtenOut_bare (name : SchemaPath → String) {i : Interior} (h : i.propertyNames.Nodup) :
    i.WrittenOut (fun r => name r.path)
      { (i.bare.site).ownModel name with description := i.head.description } := by
  have hown : i.bare.site.own = (Node.flat i.children).map Node.bare := Node.kept_bareAll _ _
  have hnames : (i.bare.site.own.map fun n => i.parent.propertyName n.head) = i.propertyNames := by
    simp only [hown, List.map_map, Function.comp_def, Node.propertyName_bare, propertyNames]
  have hdata : ∀ n ∈ i.bare.site.own, n.isData := by
    intro n hn
    rw [hown] at hn
    obtain ⟨n, hflat, rfl⟩ := List.mem_map.1 hn
    exact (Node.isData_bare n).trans (Node.isData_of_mem_flat hflat)
  obtain ⟨⟨es, hes, hentries⟩, hrequired⟩ := Site.extend_spec name i.parent {}
    hdata (hnames ▸ h) (fun _ _ => List.not_mem_nil) (fun _ _ => List.not_mem_nil)
  have hrequires : ∀ n : Node Resolved, i.parent.requires n.bare = i.parent.requires n := by
    intro n
    cases n <;> rfl
  refine ⟨Site.type_extend {} _, rfl, ?_, ?_⟩
  · have htable : (i.bare.site.ownModel name).table.entries = es := hes
    refine htable ▸ (List.forall₂_map_left_iff.1 (hown ▸ hentries)).imp ?_
    rintro n e ⟨hname, hproperty⟩
    exact ⟨hname.trans (Node.propertyName_bare _ n), Node.describes_of_property?_bare hproperty⟩
  · refine hrequired.trans ?_
    simp only [hown, List.filter_map, List.map_map, Function.comp_def, hrequires,
      Node.propertyName_bare, List.nil_append]

end Interior

end YangApi
