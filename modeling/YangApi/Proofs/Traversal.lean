import YangApi.Proofs.Segment
import YangApi.Proofs.Visit

/-! How a module is gone through. Handlers are called for the containers and lists that are visited,
a node before those below it, and then for procedures; a definition is registered when all below its
node is done. -/

namespace YangApi

namespace ElementKind

variable {α β : Type} (elements : List ElementKind) (data procedures : List α)

/-- What is asked for, data before procedures. -/
def pick : List α :=
  (if .data ∈ elements then data else []) ++ (if .rpc ∈ elements then procedures else [])

theorem mem_pick {a : α} : a ∈ pick elements data procedures ↔
    (.data ∈ elements ∧ a ∈ data) ∨ (.rpc ∈ elements ∧ a ∈ procedures) := by
  rw [pick, List.mem_append]
  by_cases hd : ElementKind.data ∈ elements <;> by_cases hr : ElementKind.rpc ∈ elements <;>
    simp [hd, hr]

theorem filterMap_pick (f : α → Option β) : (pick elements data procedures).filterMap f =
    pick elements (data.filterMap f) (procedures.filterMap f) := by
  rw [pick, pick, List.filterMap_append]
  by_cases hd : ElementKind.data ∈ elements <;> by_cases hr : ElementKind.rpc ∈ elements <;>
    simp [hd, hr]

theorem map_pick (f : α → β) :
    (pick elements data procedures).map f = pick elements (data.map f) (procedures.map f) := by
  rw [← List.filterMap_eq_map, filterMap_pick]

theorem filter_pick (p : α → Bool) : (pick elements data procedures).filter p =
    pick elements (data.filter p) (procedures.filter p) := by
  rw [← List.filterMap_eq_filter, filterMap_pick]

end ElementKind

def Place.segment (owner : String) (p : Place) : Segment := .along owner p.levels

def Place.visit (owner : String) (p : Place) : Visit := .path p.node (p.segment owner)

namespace Visit

def isCall : Visit → Bool
  | .path _ _ => true
  | .define _ => false
  | .rpc _ _ => true

/-- What is registered on the way, sides of procedures aside: the handler sees to them. -/
def registered? : Visit → Option Interior
  | .define i => some i
  | _ => none

/-- Whatever is registered stands right behind its own call and all that is below it. -/
def Nested (selected : List String) (owner : String) (vs : List Visit) : Prop :=
  ∀ before i after, vs = before ++ .define i :: after →
    ∃ earlier s, before = earlier ++ .path i s :: Node.visitsAll selected owner s i.children

section nested

variable {selected : List String} {owner : String} {vs ws : List Visit}

theorem split_append {before after : List Visit} {v : Visit}
    (h : vs ++ ws = before ++ v :: after) :
    (∃ rest, vs = before ++ v :: rest) ∨ ∃ rest, before = vs ++ rest ∧ ws = rest ++ v :: after := by
  obtain ⟨rest, hbefore, hws⟩ | ⟨rest, hvs, hrest⟩ := List.append_eq_append_iff.1 h
  · exact .inr ⟨rest, hbefore, hws⟩
  · obtain ⟨rfl, rfl⟩ | ⟨rest', rfl, -⟩ := List.cons_eq_append_iff.1 hrest
    · exact .inr ⟨[], by simp [hvs], rfl⟩
    · exact .inl ⟨rest', hvs⟩

theorem nested_of_not_define (h : ∀ i, .define i ∉ vs) : Nested selected owner vs := by
  rintro before i after rfl
  exact absurd (by simp) (h i)

theorem Nested.append (hv : Nested selected owner vs) (hw : Nested selected owner ws) :
    Nested selected owner (vs ++ ws) := by
  intro before i after h
  obtain ⟨rest, hvs⟩ | ⟨rest, rfl, hws⟩ := split_append h
  · exact hv before i rest hvs
  · obtain ⟨earlier, s, rfl⟩ := hw rest i after hws
    exact ⟨vs ++ earlier, s, by simp⟩

theorem Nested.close {i : Interior} {s : Segment}
    (h : Nested selected owner (Node.visitsAll selected owner s i.children)) :
    Nested selected owner
      (.path i s :: (Node.visitsAll selected owner s i.children ++ [.define i])) := by
  intro before j after hsplit
  cases before with
  | nil => simp at hsplit
  | cons v before =>
    rw [List.cons_append, List.cons.injEq] at hsplit
    obtain ⟨rfl, hsplit⟩ := hsplit
    obtain ⟨rest, hbelow⟩ | ⟨rest, rfl, hlast⟩ := split_append hsplit
    · obtain ⟨earlier, s', rfl⟩ := h before j rest hbelow
      exact ⟨.path i s :: earlier, s', rfl⟩
    · have hrest : rest = [] ∧ i = j := by
        cases rest <;> simp_all
      obtain ⟨rfl, rfl⟩ := hrest
      exact ⟨[], s, by simp⟩

end nested

end Visit

namespace Node

variable {selected : List String} {owner : String} {around : Lineage Resolved}

theorem calls_visitsAll (hin : ∀ e ∈ around, e.head.owner ∈ selected) (ns : List (Node Resolved)) :
    (visitsAll selected owner (.along owner around.levels) ns).filter Visit.isCall =
      ((placesAll .down around ns).filter fun p => p.Selected selected).map
        (Place.visit owner) := by
  induction ns using Node.levels generalizing around with
  | nil => simp [visitsAll, placesAll]
  | cons n ns ihn ihns =>
    rw [visitsAll_cons, placesAll_cons, List.filter_append, List.filter_append, List.map_append,
      ihn hin, ihns hin]
  | inner r shape uses cs ih =>
    rw [visitsAll_inner, placesAll_down_inner, ← Segment.along_concat, ← Lineage.levels_inner]
    split
    · next hr =>
      have hin' : ∀ e ∈ (⟨r, some shape⟩ :: around : Lineage Resolved), e.head.owner ∈ selected :=
        List.forall_mem_cons.2 ⟨hr, hin⟩
      have hsel : Place.Selected selected ⟨around, ⟨r, shape, uses, cs⟩⟩ := hin'
      rw [List.filter_cons_of_pos (by rfl), List.filter_append, ih hin']
      simp [Visit.isCall, hsel, Place.visit, Place.segment, Place.levels, Place.lineage]
    · next hr =>
      have hout : ¬ Place.Selected selected ⟨around, ⟨r, shape, uses, cs⟩⟩ :=
        fun h => hr (h _ (List.mem_cons_self ..))
      rw [List.filter_cons_of_neg (by simpa using hout), filter_selected_eq_nil hr]
      rfl
  | choice r ks ih =>
    rw [visitsAll_choice, placesAll_choice]
    split
    · next hr =>
      rw [List.filter_flatMap, List.filter_flatMap, List.map_flatMap]
      refine List.flatMap_congr fun k hk => ?_
      have hin' : ∀ e ∈ (⟨r, none⟩ :: around : Lineage Resolved), e.head.owner ∈ selected :=
        List.forall_mem_cons.2 ⟨hr, hin⟩
      have hk' := ih k hk hin'
      rwa [Lineage.levels_choice] at hk'
    · next hr =>
      rw [List.filter_flatMap,
        List.flatMap_eq_nil_iff.2 fun k _ => filter_selected_eq_nil hr none k.2]
      rfl
  | leaf | leafList | anyxml => simp [visitsAll, visits, placesAll, places]

theorem registered_visitsAll (hin : ∀ e ∈ around, e.head.owner ∈ selected) (segment : Segment)
    (ns : List (Node Resolved)) :
    (visitsAll selected owner segment ns).filterMap Visit.registered? =
      ((placesAll .up around ns).filter fun p => p.Selected selected).map Place.node := by
  induction ns using Node.levels generalizing around segment with
  | nil => simp [visitsAll, placesAll]
  | cons n ns ihn ihns =>
    rw [visitsAll_cons, placesAll_cons, List.filterMap_append, List.filter_append, List.map_append,
      ihn hin, ihns hin]
  | inner r shape uses cs ih =>
    rw [visitsAll_inner, placesAll_up_inner, List.filter_append, List.map_append]
    split
    · next hr =>
      have hin' : ∀ e ∈ (⟨r, some shape⟩ :: around : Lineage Resolved), e.head.owner ∈ selected :=
        List.forall_mem_cons.2 ⟨hr, hin⟩
      have hsel : Place.Selected selected ⟨around, ⟨r, shape, uses, cs⟩⟩ := hin'
      rw [List.filterMap_cons_none (by rfl), List.filterMap_append, ih hin']
      simp [Visit.registered?, hsel]
    · next hr =>
      have hout : ¬ Place.Selected selected ⟨around, ⟨r, shape, uses, cs⟩⟩ :=
        fun h => hr (h _ (List.mem_cons_self ..))
      simp [filter_selected_eq_nil hr, hout]
  | choice r ks ih =>
    rw [visitsAll_choice, placesAll_choice]
    split
    · next hr =>
      rw [List.filterMap_flatMap, List.filter_flatMap, List.map_flatMap]
      exact List.flatMap_congr fun k hk => ih k hk (List.forall_mem_cons.2 ⟨hr, hin⟩) segment
    · next hr =>
      rw [List.filter_flatMap,
        List.flatMap_eq_nil_iff.2 fun k _ => filter_selected_eq_nil hr none k.2]
      rfl
  | leaf | leafList | anyxml => simp [visitsAll, visits, placesAll, places]

theorem nested_visitsAll (segment : Segment) (ns : List (Node Resolved)) :
    Visit.Nested selected owner (visitsAll selected owner segment ns) := by
  induction ns using Node.levels generalizing segment with
  | nil => exact Visit.nested_of_not_define (by simp [visitsAll])
  | cons n ns ihn ihns =>
    rw [visitsAll_cons]
    exact (ihn segment).append (ihns segment)
  | inner r shape uses cs ih =>
    rw [visitsAll_inner]
    split
    · exact Visit.Nested.close (i := ⟨r, shape, uses, cs⟩) (ih _)
    · exact Visit.nested_of_not_define (by simp)
  | choice r ks ih =>
    rw [visitsAll_choice]
    split
    · induction ks with
      | nil => exact Visit.nested_of_not_define (by simp)
      | cons k ks ihks =>
        rw [List.flatMap_cons]
        exact (ih k (List.mem_cons_self ..) segment).append
          (ihks fun k' hk' => ih k' (List.mem_cons_of_mem _ hk'))
    · exact Visit.nested_of_not_define (by simp)
  | leaf | leafList | anyxml => exact Visit.nested_of_not_define (by simp [visitsAll, visits])

theorem placesAll_up_perm (ns : List (Node Resolved)) :
    (placesAll .up around ns).Perm (placesAll .down around ns) := by
  induction ns using Node.levels generalizing around with
  | nil => exact .refl _
  | cons n ns ihn ihns =>
    rw [placesAll_cons n ns, placesAll_cons n ns]
    exact ihn.append ihns
  | inner r shape uses cs ih =>
    rw [placesAll_up_inner, placesAll_down_inner]
    exact List.perm_append_comm.trans (ih.cons _)
  | choice r ks ih =>
    rw [placesAll_choice, placesAll_choice]
    exact List.Perm.flatMap_left ks fun k hk => ih k hk
  | leaf | leafList | anyxml => exact .refl _

end Node

namespace Module

theorem visited_up_perm (selected : List String) (m : Module Resolved) :
    (m.visited .up selected).Perm (m.visited .down selected) :=
  (Node.placesAll_up_perm m.children).filter _

theorem visits_eq (m : Module Resolved) (selected : List String) (elements : List ElementKind) :
    m.visits selected elements = ElementKind.pick elements
      (Node.visitsAll selected m.name (.ofModule m.name) m.children)
      (m.rpcs.map (Rpc.visit m.name)) := rfl

theorem calls_visits (m : Module Resolved) (selected : List String) (elements : List ElementKind) :
    (m.visits selected elements).filter Visit.isCall = ElementKind.pick elements
      ((m.visited .down selected).map (Place.visit m.name)) (m.rpcs.map (Rpc.visit m.name)) := by
  have hdata : (Node.visitsAll selected m.name (.ofModule m.name) m.children).filter Visit.isCall =
      (m.visited .down selected).map (Place.visit m.name) :=
    Node.calls_visitsAll (List.forall_mem_nil _) m.children
  have hrpcs : (m.rpcs.map (Rpc.visit m.name)).filter Visit.isCall =
      m.rpcs.map (Rpc.visit m.name) :=
    List.filter_eq_self.2 (by simp [Rpc.visit, Visit.isCall])
  rw [visits_eq, ElementKind.filter_pick, hdata, hrpcs]

theorem registered_visits (m : Module Resolved) (selected : List String)
    (elements : List ElementKind) : (m.visits selected elements).filterMap Visit.registered? =
      if .data ∈ elements then (m.visited .up selected).map Place.node else [] := by
  have hdata : (Node.visitsAll selected m.name (.ofModule m.name) m.children).filterMap
      Visit.registered? = (m.visited .up selected).map Place.node :=
    Node.registered_visitsAll (List.forall_mem_nil _) _ m.children
  have hrpcs : (m.rpcs.map (Rpc.visit m.name)).filterMap Visit.registered? = [] :=
    List.filterMap_eq_nil_iff.2 (by simp [Rpc.visit, Visit.registered?])
  rw [visits_eq, ElementKind.filterMap_pick, hdata, hrpcs]
  simp [ElementKind.pick]

theorem nested_visits (m : Module Resolved) (selected : List String) (elements : List ElementKind) :
    Visit.Nested selected m.name (m.visits selected elements) := by
  refine .append ?_ (Visit.nested_of_not_define ?_)
  · split
    · exact Node.nested_visitsAll _ _
    · exact Visit.nested_of_not_define (by simp)
  · split <;> simp [Rpc.visit]

theorem visit_of_isCall {m : Module Resolved} {selected : List String} {elements : List ElementKind}
    {v : Visit} (hv : v ∈ m.visits selected elements) (hcall : v.isCall) :
    (∃ p ∈ m.visited .down selected, p.visit m.name = v) ∨
      ∃ r ∈ m.rpcs, Rpc.visit m.name r = v := by
  have hmem := List.mem_filter.2 ⟨hv, hcall⟩
  rw [calls_visits, ElementKind.mem_pick] at hmem
  exact hmem.imp (fun h => List.mem_map.1 h.2) fun h => List.mem_map.1 h.2

theorem exists_path_iff_visited {m : Module Resolved} {selected : List String}
    {elements : List ElementKind} {i : Interior} :
    (∃ s, .path i s ∈ m.visits selected elements) ↔
      .data ∈ elements ∧ ∃ p ∈ m.visited .down selected, p.node = i := by
  have hcall : ∀ s, .path i s ∈ m.visits selected elements ↔
      .path i s ∈ (m.visits selected elements).filter Visit.isCall := by
    intro s
    rw [List.mem_filter]
    exact (and_iff_left rfl).symm
  simp only [hcall, calls_visits, ElementKind.mem_pick, List.mem_map]
  constructor
  · rintro ⟨s, ⟨hdata, p, hp, he⟩ | ⟨-, r, -, hr⟩⟩
    · exact ⟨hdata, p, hp, (Visit.path.inj he).1⟩
    · cases hr
  · rintro ⟨hdata, p, hp, rfl⟩
    exact ⟨_, .inl ⟨hdata, p, hp, rfl⟩⟩

/-- Exactly the calls of a module, in their order; the segments they are made with; and what is
registered, each node once and behind everything below it. -/
theorem visits_exact (m : Module Resolved) (selected : List String) (elements : List ElementKind) :
    (m.visits selected elements).filter Visit.isCall = ElementKind.pick elements
        ((m.visited .down selected).map (Place.visit m.name)) (m.rpcs.map (Rpc.visit m.name)) ∧
      (∀ p : Place, (p.segment m.name).Follows m.name p.levels) ∧
      (∀ r : Rpc Resolved, ∃ l : Level,
        Rpc.visit m.name r = .rpc r ⟨m.name, [l]⟩ ∧ l.name = r.name ∧ l.owner = r.ownerIn m.name) ∧
      (m.visits selected elements).filterMap Visit.registered? =
        (if .data ∈ elements then (m.visited .up selected).map Place.node else []) ∧
      (m.visited .up selected).Perm (m.visited .down selected) ∧
      Visit.Nested selected m.name (m.visits selected elements) :=
  ⟨m.calls_visits selected elements, fun _ => Segment.follows_along .., fun _ => ⟨_, rfl, rfl, rfl⟩,
    m.registered_visits selected elements, m.visited_up_perm selected,
    m.nested_visits selected elements⟩

end Module

end YangApi
