import Mathlib.Data.List.Nodup
import YangApi.Proofs.Schema.Tree

/-! What stands around a node. Containers and lists are levels of their own; a choice is around its
nodes too, but they stand at the level that the choice stands at. -/

namespace YangApi

/-- A node with others inside it. Only a container or list has a shape. -/
structure Enclosing (α : Type) where
  head : α
  shape? : Option Shape

/-- What is around a node, nearest first. -/
abbrev Lineage (α : Type) := List (Enclosing α)

namespace Lineage

variable {α : Type}

def levels (l : Lineage α) : List (α × Shape) :=
  (l.filterMap fun e => e.shape?.map fun shape => (e.head, shape)).reverse

@[simp] theorem levels_nil : levels ([] : Lineage α) = [] := rfl

@[simp] theorem levels_inner (h : α) (shape : Shape) (l : Lineage α) :
    levels (⟨h, some shape⟩ :: l) = levels l ++ [(h, shape)] := by
  simp [levels]

@[simp] theorem levels_choice (h : α) (l : Lineage α) : levels (⟨h, none⟩ :: l) = levels l := by
  simp [levels]

end Lineage

/-- A container or list, and what is around it. -/
structure Place where
  around : Lineage Resolved
  node : Interior

namespace Place

def lineage (p : Place) : Lineage Resolved := ⟨p.node.head, some p.node.shape⟩ :: p.around

/-- The containers and lists down to the node. -/
def levels (p : Place) : List (Resolved × Shape) := p.lineage.levels

theorem levels_eq (p : Place) : p.levels = p.around.levels ++ [(p.node.head, p.node.shape)] :=
  Lineage.levels_inner ..

def names (p : Place) : List String := p.levels.map fun e => e.1.name

/-- The node and everything around it, choices too, belong to selected modules. -/
def Selected (selected : List String) (p : Place) : Prop :=
  ∀ e ∈ p.lineage, e.head.owner ∈ selected

instance (selected : List String) (p : Place) : Decidable (p.Selected selected) :=
  inferInstanceAs (Decidable (∀ e ∈ p.lineage, _))

end Place

/-- The two ways to list a tree depth first: a node before those below it, or after them. -/
inductive Way where
  | down
  | up

mutual

/-- The containers and lists of a tree, choices flattened in place. -/
def Node.places (way : Way) (around : Lineage Resolved) : Node Resolved → List Place
  | .inner r shape uses cs =>
    let place : Place := ⟨around, ⟨r, shape, uses, cs⟩⟩
    let below := Node.placesAll way (⟨r, some shape⟩ :: around) cs
    match way with
    | .down => place :: below
    | .up => below ++ [place]
  | .choice r ks => Node.placesCases way (⟨r, none⟩ :: around) ks
  | _ => []

def Node.placesAll (way : Way) (around : Lineage Resolved) : List (Node Resolved) → List Place
  | [] => []
  | n :: ns => n.places way around ++ Node.placesAll way around ns

def Node.placesCases (way : Way) (around : Lineage Resolved) : Cases Resolved → List Place
  | [] => []
  | (_, ns) :: ks => Node.placesAll way around ns ++ Node.placesCases way around ks

end

namespace Node

/-- The names of the containers and lists that stand at a level, choices flattened. -/
def standing (ns : List (Node Resolved)) : List String :=
  ((flat ns).filterMap interior?).map fun i => i.head.name

theorem standing_cons (n : Node Resolved) (ns : List (Node Resolved)) :
    standing (n :: ns) = standing [n] ++ standing ns := by
  rw [standing, flat_cons, List.filterMap_append, List.map_append]
  rfl

@[simp] theorem standing_inner (r : Resolved) (shape : Shape) (uses : List String)
    (cs : List (Node Resolved)) : standing [.inner r shape uses cs] = [r.name] := by
  simp [standing, flat, flatten, interior?]

theorem standing_choice (r : Resolved) (ks : Cases Resolved) :
    standing [.choice r ks] = ks.flatMap fun k => standing k.2 := by
  rw [standing, flat_choice, List.filterMap_flatMap, List.map_flatMap]
  rfl

variable {way : Way} {around : Lineage Resolved}

theorem placesCases_eq (ks : Cases Resolved) :
    placesCases way around ks = ks.flatMap fun k => placesAll way around k.2 := by
  induction ks with
  | nil => rfl
  | cons k ks ih => rw [placesCases, List.flatMap_cons, ih]

theorem placesAll_cons (n : Node Resolved) (ns : List (Node Resolved)) :
    placesAll way around (n :: ns) = placesAll way around [n] ++ placesAll way around ns := by
  simp [placesAll]

theorem placesAll_down_inner (r : Resolved) (shape : Shape) (uses : List String)
    (cs : List (Node Resolved)) :
    placesAll .down around [.inner r shape uses cs] =
      ⟨around, ⟨r, shape, uses, cs⟩⟩ :: placesAll .down (⟨r, some shape⟩ :: around) cs := by
  simp [placesAll, places]

theorem placesAll_up_inner (r : Resolved) (shape : Shape) (uses : List String)
    (cs : List (Node Resolved)) :
    placesAll .up around [.inner r shape uses cs] =
      placesAll .up (⟨r, some shape⟩ :: around) cs ++ [⟨around, ⟨r, shape, uses, cs⟩⟩] := by
  simp [placesAll, places]

theorem placesAll_choice (r : Resolved) (ks : Cases Resolved) :
    placesAll way around [.choice r ks] =
      ks.flatMap fun k => placesAll way (⟨r, none⟩ :: around) k.2 := by
  simp [placesAll, places, placesCases_eq]

theorem mem_placesAll_inner {r : Resolved} {shape : Shape} {uses : List String}
    {cs : List (Node Resolved)} {p : Place} :
    p ∈ placesAll way around [.inner r shape uses cs] ↔
      p = ⟨around, ⟨r, shape, uses, cs⟩⟩ ∨ p ∈ placesAll way (⟨r, some shape⟩ :: around) cs := by
  cases way <;> simp [placesAll_down_inner, placesAll_up_inner, or_comm]

theorem around_subset {ns : List (Node Resolved)} {p : Place} (h : p ∈ placesAll way around ns) :
    around ⊆ p.around := by
  induction ns using Node.levels generalizing around with
  | nil => simp [placesAll] at h
  | cons n ns ihn ihns =>
    rw [placesAll_cons, List.mem_append] at h
    exact h.elim ihn ihns
  | inner r shape uses cs ih =>
    rcases mem_placesAll_inner.1 h with rfl | h
    · exact List.Subset.refl _
    · exact List.Subset.trans (List.subset_cons_self ..) (ih h)
  | choice r ks ih =>
    rw [placesAll_choice] at h
    obtain ⟨k, hk, h⟩ := List.mem_flatMap.1 h
    exact List.Subset.trans (List.subset_cons_self ..) (ih k hk h)
  | leaf | leafList | anyxml => simp [placesAll, places] at h

theorem exists_of_mem_levels {ns : List (Node Resolved)} {p : Place}
    (h : p ∈ placesAll way around ns) {e : Resolved × Shape} (he : e ∈ p.levels) :
    e ∈ around.levels ∨ ∃ i ∈ interiors ns, (i.head, i.shape) = e := by
  induction ns using Node.levels generalizing around with
  | nil => simp [placesAll] at h
  | cons n ns ihn ihns =>
    rw [placesAll_cons, List.mem_append] at h
    simp only [interiors_cons n ns, List.mem_append, or_and_right, exists_or]
    rcases h with h | h
    · exact (ihn h).imp_right .inl
    · exact (ihns h).imp_right .inr
  | inner r shape uses cs ih =>
    simp only [interiors_inner, List.mem_cons, exists_eq_or_imp]
    rcases mem_placesAll_inner.1 h with rfl | h
    · rw [Place.levels_eq, List.mem_append, List.mem_singleton] at he
      exact he.imp_right fun he => .inl he.symm
    · rcases ih h with he | he
      · rw [Lineage.levels_inner, List.mem_append, List.mem_singleton] at he
        exact he.imp_right fun he => .inl he.symm
      · exact .inr (.inr he)
  | choice r ks ih =>
    rw [placesAll_choice] at h
    obtain ⟨k, hk, h⟩ := List.mem_flatMap.1 h
    rw [interiors_choice]
    exact (ih k hk h).imp_right fun ⟨i, hi, hie⟩ => ⟨i, List.mem_flatMap.2 ⟨k, hk, hi⟩, hie⟩
  | leaf | leafList | anyxml => simp [placesAll, places] at h

theorem exists_step {ns : List (Node Resolved)} {p : Place} (h : p ∈ placesAll way around ns) :
    ∃ name ∈ standing ns, ∃ rest,
      p.names = around.levels.map (fun e => e.1.name) ++ name :: rest := by
  induction ns using Node.levels generalizing around with
  | nil => simp [placesAll] at h
  | cons n ns ihn ihns =>
    rw [placesAll_cons, List.mem_append] at h
    simp only [standing_cons n ns, List.mem_append, or_and_right, exists_or]
    exact h.imp ihn ihns
  | inner r shape uses cs ih =>
    refine ⟨r.name, by simp, ?_⟩
    rcases mem_placesAll_inner.1 h with rfl | h
    · exact ⟨[], by simp [Place.names, Place.levels_eq]⟩
    · obtain ⟨name, -, rest, hnames⟩ := ih h
      exact ⟨name :: rest, by simpa using hnames⟩
  | choice r ks ih =>
    rw [placesAll_choice] at h
    obtain ⟨k, hk, h⟩ := List.mem_flatMap.1 h
    obtain ⟨name, hname, rest, hnames⟩ := ih k hk h
    rw [Lineage.levels_choice] at hnames
    rw [standing_choice]
    exact ⟨name, List.mem_flatMap.2 ⟨k, hk, hname⟩, rest, hnames⟩
  | leaf | leafList | anyxml => simp [placesAll, places] at h

/-- Below nodes of different names, the names down to places differ. -/
theorem names_ne {ns ns' : List (Node Resolved)} {p q : Place} (hp : p ∈ placesAll way around ns)
    (hq : q ∈ placesAll way around ns') (hdisjoint : (standing ns).Disjoint (standing ns')) :
    p.names ≠ q.names := by
  intro h
  obtain ⟨name, hname, rest, hnames⟩ := exists_step hp
  obtain ⟨name', hname', rest', hnames'⟩ := exists_step hq
  rw [hnames, hnames'] at h
  obtain ⟨rfl, -⟩ := List.cons.inj (List.append_cancel_left h)
  exact hdisjoint hname hname'

/-- Where the containers and lists of every level have different names, no two places have the same
names down to them. -/
theorem pairwise_names {ns : List (Node Resolved)} (hns : (standing ns).Nodup)
    (hbelow : ∀ i ∈ interiors ns, (standing i.children).Nodup) :
    (placesAll .down around ns).Pairwise fun p q => p.names ≠ q.names := by
  induction ns using Node.levels generalizing around with
  | nil => exact .nil
  | cons n ns ihn ihns =>
    rw [standing_cons, List.nodup_append'] at hns
    rw [interiors_cons, List.forall_mem_append] at hbelow
    rw [placesAll_cons, List.pairwise_append]
    exact ⟨ihn hns.1 hbelow.1, ihns hns.2.1 hbelow.2, fun p hp q hq => names_ne hp hq hns.2.2⟩
  | inner r shape uses cs ih =>
    rw [interiors_inner, List.forall_mem_cons] at hbelow
    rw [placesAll_down_inner, List.pairwise_cons]
    refine ⟨fun q hq h => ?_, ih hbelow.1 hbelow.2⟩
    obtain ⟨name, -, rest, hnames⟩ := exists_step hq
    rw [hnames] at h
    simp [Place.names, Place.levels_eq] at h
  | choice r ks ih =>
    rw [standing_choice, List.nodup_flatMap] at hns
    rw [interiors_choice] at hbelow
    rw [placesAll_choice, List.pairwise_flatMap]
    refine ⟨fun k hk => ih k hk (hns.1 k hk) fun i hi => ?_, ?_⟩
    · exact hbelow i (List.mem_flatMap.2 ⟨k, hk, hi⟩)
    · exact hns.2.imp fun hdisjoint p hp q hq => names_ne hp hq hdisjoint
  | leaf | leafList | anyxml => simp [placesAll, places]

theorem filter_selected_eq_nil {selected : List String} {r : Resolved} (hr : r.owner ∉ selected)
    (shape? : Option Shape) (ns : List (Node Resolved)) :
    (placesAll way (⟨r, shape?⟩ :: around) ns).filter (fun p => p.Selected selected) = [] := by
  rw [List.filter_eq_nil_iff]
  intro p hp hsel
  have hall : p.Selected selected := of_decide_eq_true hsel
  exact hr (hall ⟨r, shape?⟩ (List.mem_cons_of_mem _ (around_subset hp (List.mem_cons_self ..))))

end Node

/-- The containers and lists of a module's data that a run over selected modules goes through. -/
def Module.visited (way : Way) (selected : List String) (m : Module Resolved) : List Place :=
  (Node.placesAll way [] m.children).filter fun p => p.Selected selected

end YangApi
