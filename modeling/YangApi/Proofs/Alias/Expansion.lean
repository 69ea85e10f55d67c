import Mathlib.Data.List.Forall2
import YangApi.Proofs.Alias.Collapse

/-! Collapsing aliases keeps what a document says. The expansion of a schema writes definitions in
the place of references, level by level; a reference to an alias is one to the end of its chain.
Definitions may refer to each other in circles, so that meaning is compared at every depth. -/

namespace YangApi

/-- A schema in which references are written out. Below the last level only the name is left, and a
name without a definition stays. -/
inductive Expansion where
  | scalar (s : Scalar)
  | array (items : Expansion)
  | plain (type : String) (properties : Option (List (String × Expansion))) (required : List String)
  | composed (parts : List Expansion)
  | undefined (name : String)
  | cut (name : String)

namespace Expansion

mutual

/-- Equality up to the order of compositions, at any depth. -/
inductive Same : Expansion → Expansion → Prop
  | refl (e : Expansion) : Same e e
  | array {a b : Expansion} (h : Same a b) : Same (.array a) (.array b)
  | plain {type : String} {required : List String} {ps qs : List (String × Expansion)}
    (h : SameProperties ps qs) : Same (.plain type (some ps) required) (.plain type (some qs) required)
  | composed {ps qs : List Expansion} (h : SameParts ps qs) : Same (.composed ps) (.composed qs)

inductive SameProperties : List (String × Expansion) → List (String × Expansion) → Prop
  | nil : SameProperties [] []
  | cons {name : String} {a b : Expansion} {ps qs : List (String × Expansion)} (h : Same a b)
    (hs : SameProperties ps qs) : SameProperties ((name, a) :: ps) ((name, b) :: qs)

inductive SameParts : List Expansion → List Expansion → Prop
  | nil : SameParts [] []
  | cons {a b : Expansion} {ps qs : List Expansion} (h : Same a b) (hs : SameParts ps qs) :
    SameParts (a :: ps) (b :: qs)
  | swap (a b : Expansion) (ps : List Expansion) : SameParts (a :: b :: ps) (b :: a :: ps)
  | trans {ps qs rs : List Expansion} (h : SameParts ps qs) (h' : SameParts qs rs) : SameParts ps rs

end

theorem SameParts.of_perm {ps qs : List Expansion} (h : ps.Perm qs) : SameParts ps qs := by
  induction h with
  | nil => exact .nil
  | cons a _ ih => exact .cons (.refl a) ih
  | swap a b ps => exact .swap b a ps
  | trans _ _ ih ih' => exact .trans ih ih'

def SameEntry {α : Type} (a b : α × Expansion) : Prop := a.1 = b.1 ∧ Same a.2 b.2

end Expansion

/-- The expansion of a property when names expand by `ref`; descriptions are left out. -/
def Property.expand (ref : String → Expansion) : Property → Expansion
  | .ref n _ => ref n
  | .array p _ => .array (p.expand ref)
  | .scalar s => .scalar { s with description := none }

def Plain.expand (ref : String → Expansion) (m : Plain) : Expansion :=
  .plain m.type (m.properties.map fun t => t.entries.map fun e => (e.1, e.2.expand ref)) m.required

mutual

def Model.expand (ref : String → Expansion) : Model → Expansion
  | .ref n => ref n
  | .composed _ parts _ => .composed (Model.expandAll ref parts)
  | .plain m => m.expand ref

def Model.expandAll (ref : String → Expansion) : List Model → List Expansion
  | [] => []
  | m :: ms => m.expand ref :: Model.expandAll ref ms

end

namespace Table

/-- What a definition stands for if it wraps exactly one reference to another name. -/
def standsFor? (t : Table Model) (name : String) : Option String :=
  ((t.get? name).bind Model.aliasTarget?).filter (· ≠ name)

def followWrappers (t : Table Model) : (steps : Nat) → (name : String) → String
  | 0, name => name
  | steps + 1, name =>
    match t.standsFor? name with
    | none => name
    | some next => followWrappers t steps next

/-- The end of the wrappers that start at a name. -/
def behind (t : Table Model) (name : String) : String := t.followWrappers t.size name

/-- The expansion of a name to a depth. -/
def expandRef (t : Table Model) : (depth : Nat) → (name : String) → Expansion
  | 0, name => .cut (t.behind name)
  | depth + 1, name =>
    match t.get? (t.behind name) with
    | none => .undefined (t.behind name)
    | some m => m.expand (t.expandRef depth)

end Table

/-- Where a schema stands in an operation. -/
inductive SchemaPlace where
  | body (name : String)
  | response (code : String)

def Parameter.expansions (ref : String → Expansion) : Parameter → List (SchemaPlace × Expansion)
  | .body b => [(.body b.name, b.schema.expand ref)]
  | .path _ => []

def Response.expansions (ref : String → Expansion) (code : String) (r : Response) :
    List (SchemaPlace × Expansion) :=
  r.schema.toList.map fun p => (.response code, p.expand ref)

def Operation.expansions (ref : String → Expansion) (o : Operation) :
    List (SchemaPlace × Expansion) :=
  o.parameters.flatMap (Parameter.expansions ref) ++
    o.responses.entries.flatMap fun e => e.2.expansions ref e.1

def PathItem.expansions (ref : String → Expansion) (i : PathItem) :
    List ((Method × SchemaPlace) × Expansion) :=
  i.operations.flatMap fun e => (e.2.expansions ref).map fun s => ((e.1, s.1), s.2)

/-- The expansions of all body and response schemas, each with its place. -/
def Document.expansions (depth : Nat) (d : Document) :
    List ((String × Method × SchemaPlace) × Expansion) :=
  d.paths.entries.flatMap fun e =>
    (e.2.expansions (d.table.expandRef depth)).map fun s => ((e.1, s.1), s.2)

section retarget

open Expansion

variable {m : AliasMap} {ref ref' : String → Expansion}

theorem Property.expand_retarget (href : ∀ n, Same (ref n) (ref' (m.target n))) (p : Property) :
    Same (p.expand ref) ((p.retarget m).expand ref') := by
  induction p with
  | ref n d => exact href n
  | array p d ih => exact .array ih
  | scalar s => exact .refl _

theorem Property.expand_withDescription (ref : String → Expansion) (x : Option String)
    (p : Property) : (p.withDescription x).expand ref = p.expand ref := by
  cases p <;> rfl

theorem Property.expand_retargetSchema (href : ∀ n, Same (ref n) (ref' (m.target n)))
    (p : Property) : Same (p.expand ref) ((p.retargetSchema m).expand ref') := by
  unfold retargetSchema
  cases h : p.refName? with
  | some old =>
    dsimp only
    rw [expand_withDescription]
    exact p.expand_retarget href
  | none =>
    have hsame : p.retarget m = p := by
      induction p with
      | ref n d => cases h
      | array p d ih => rw [retarget, ih h]
      | scalar s => rfl
    have hexpand := p.expand_retarget href
    rwa [hsame] at hexpand

theorem Plain.expand_retarget (href : ∀ n, Same (ref n) (ref' (m.target n))) (p : Plain) :
    Same (p.expand ref) ((p.retarget m).expand ref') := by
  unfold expand retarget
  cases p.properties with
  | none => exact .refl _
  | some t =>
    refine .plain ?_
    simp only [Table.map, List.map_map]
    induction t.entries with
    | nil => exact .nil
    | cons e es ih => exact .cons (e.2.expand_retarget href) ih

theorem Model.expandAll_eq (ref : String → Expansion) (ms : List Model) :
    expandAll ref ms = ms.map (expand ref) := by
  induction ms with
  | nil => rfl
  | cons m ms ih => rw [expandAll, List.map_cons, ih]

mutual

theorem Model.expand_retarget (href : ∀ n, Same (ref n) (ref' (m.target n))) :
    ∀ d : Model, Same (d.expand ref) ((d.retarget m).expand ref')
  | .ref n => href n
  | .composed _ parts _ => .composed (Model.expandAll_retargetAll href parts)
  | .plain p => p.expand_retarget href

theorem Model.expandAll_retargetAll (href : ∀ n, Same (ref n) (ref' (m.target n))) :
    ∀ ds : List Model, SameParts (expandAll ref ds) (expandAll ref' (retargetAll m ds))
  | [] => .nil
  | d :: ds => .cons (Model.expand_retarget href d) (Model.expandAll_retargetAll href ds)

end

mutual

theorem Model.expand_sort_retarget (href : ∀ n, Same (ref n) (ref' (m.target n))) :
    ∀ d : Model, Same (d.expand ref) ((d.retarget m).sort.expand ref')
  | .ref n => href n
  | .composed _ parts _ => by
    refine .composed (.trans (Model.expandAll_sortAll_retargetAll href parts) ?_)
    rw [expandAll_eq, expandAll_eq]
    exact .of_perm ((arrange_perm _).symm.map _)
  | .plain p => p.expand_retarget href

theorem Model.expandAll_sortAll_retargetAll (href : ∀ n, Same (ref n) (ref' (m.target n))) :
    ∀ ds : List Model, SameParts (expandAll ref ds) (expandAll ref' (sortAll (retargetAll m ds)))
  | [] => .nil
  | d :: ds =>
    .cons (Model.expand_sort_retarget href d) (Model.expandAll_sortAll_retargetAll href ds)

end

theorem forall₂_flatMap {α β : Type} {R : β → β → Prop} {f g : α → List β} {l : List α}
    (h : ∀ a ∈ l, List.Forall₂ R (f a) (g a)) : List.Forall₂ R (l.flatMap f) (l.flatMap g) := by
  induction l with
  | nil => exact .nil
  | cons a l ih =>
    rw [List.forall_mem_cons] at h
    rw [List.flatMap_cons, List.flatMap_cons]
    exact List.rel_append h.1 (ih h.2)

theorem forall₂_label {α β : Type} (label : β) {es fs : List (α × Expansion)}
    (h : List.Forall₂ SameEntry es fs) :
    List.Forall₂ SameEntry (es.map fun e => ((label, e.1), e.2)) (fs.map fun e => ((label, e.1), e.2)) := by
  induction h with
  | nil => exact .nil
  | cons he _ ih => exact .cons ⟨congrArg (Prod.mk label) he.1, he.2⟩ ih

theorem Parameter.expansions_retarget (href : ∀ n, Same (ref n) (ref' (m.target n)))
    (p : Parameter) : List.Forall₂ SameEntry (p.expansions ref) ((p.retarget m).expansions ref') := by
  cases p with
  | path p => exact .nil
  | body b => exact .cons ⟨rfl, b.schema.expand_retarget href⟩ .nil

theorem Response.expansions_retarget (href : ∀ n, Same (ref n) (ref' (m.target n)))
    (code : String) (r : Response) :
    List.Forall₂ SameEntry (r.expansions ref code) ((r.retarget m).expansions ref' code) := by
  unfold expansions retarget
  cases r.schema with
  | none => exact .nil
  | some p => exact .cons ⟨rfl, p.expand_retargetSchema href⟩ .nil

theorem Operation.expansions_retarget (href : ∀ n, Same (ref n) (ref' (m.target n)))
    (o : Operation) : List.Forall₂ SameEntry (o.expansions ref) ((o.retarget m).expansions ref') := by
  unfold expansions retarget
  simp only [Table.map, List.flatMap_map]
  refine List.rel_append ?_ ?_
  · exact forall₂_flatMap fun p _ => p.expansions_retarget href
  · exact forall₂_flatMap fun e _ => e.2.expansions_retarget href e.1

theorem PathItem.expansions_retarget (href : ∀ n, Same (ref n) (ref' (m.target n)))
    (i : PathItem) : List.Forall₂ SameEntry (i.expansions ref)
      ((i.map (Operation.retarget m)).expansions ref') := by
  unfold expansions
  rw [operations_map, List.flatMap_map]
  exact forall₂_flatMap fun e _ => forall₂_label e.1 (e.2.expansions_retarget href)

end retarget

end YangApi
