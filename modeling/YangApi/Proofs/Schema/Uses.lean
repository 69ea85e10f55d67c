import Mathlib.Tactic.ByContra
import YangApi.Proofs.Acyclic
import YangApi.Proofs.Schema.Tree

/-! Groupings of a context, which of them use which, and all containers and lists it holds. -/

namespace YangApi

theorem GroupingRef.path_inj {a b : GroupingRef} (h : a.path = b.path) : a = b := by
  obtain ⟨ao, an⟩ := a
  obtain ⟨bo, bn⟩ := b
  simpa [path] using h

def RpcSide.interiors (s : RpcSide Resolved) : List Interior := s.interior :: s.interior.below

/-- Data nodes, and the sides of procedures with what is below them. -/
def Module.dataInteriors (m : Module Resolved) : List Interior :=
  Node.interiors m.children ++ m.rpcs.flatMap fun r => r.sides.flatMap RpcSide.interiors

def Module.interiors (m : Module Resolved) : List Interior :=
  m.dataInteriors ++ m.groupings.flatMap fun g => Node.interiors g.children

theorem Module.below_subset_dataInteriors {m : Module Resolved} {i : Interior}
    (h : i ∈ m.dataInteriors) : i.below ⊆ m.dataInteriors := by
  intro j hj
  rcases List.mem_append.1 h with h | h
  · exact List.mem_append_left _ (Interior.below_subset h hj)
  · obtain ⟨r, hr, h⟩ := List.mem_flatMap.1 h
    obtain ⟨s, hs, h⟩ := List.mem_flatMap.1 h
    refine List.mem_append_right _ (List.mem_flatMap.2 ⟨r, hr, List.mem_flatMap.2 ⟨s, hs, ?_⟩⟩)
    refine List.mem_cons_of_mem _ ?_
    rcases List.mem_cons.1 h with rfl | h
    · exact hj
    · exact Interior.below_subset h hj

theorem Module.below_subset_interiors {m : Module Resolved} {i : Interior}
    (h : i ∈ m.interiors) : i.below ⊆ m.interiors := by
  intro j hj
  rcases List.mem_append.1 h with h | h
  · exact List.mem_append_left _ (below_subset_dataInteriors h hj)
  · obtain ⟨g, hg, h⟩ := List.mem_flatMap.1 h
    exact List.mem_append_right _ (List.mem_flatMap.2 ⟨g, hg, Interior.below_subset h hj⟩)

namespace Context

/-- Everything outside groupings that is a container, a list or a side of a procedure. -/
def dataInteriors (c : Context) : List Interior := c.modules.flatMap Module.dataInteriors

def interiors (c : Context) : List Interior := c.modules.flatMap Module.interiors

theorem below_subset_interiors {c : Context} {i : Interior} (h : i ∈ c.interiors) :
    i.below ⊆ c.interiors := by
  intro j hj
  obtain ⟨m, hm, h⟩ := List.mem_flatMap.1 h
  exact List.mem_flatMap.2 ⟨m, hm, Module.below_subset_interiors h hj⟩

def groupingAt? (c : Context) (a : GroupingRef) : Option (Grouping Resolved) :=
  (c.module? a.owner).bind (·.grouping? a.name)

theorem grouping?_eq (c : Context) (reference owner : String) :
    c.grouping? reference owner = c.groupingAt? (.read reference owner) := rfl

/-- One grouping uses another; what it uses is read in its own module. -/
def Uses (c : Context) (a b : GroupingRef) : Prop :=
  ∃ g, c.groupingAt? a = some g ∧ ∃ u ∈ g.uses, GroupingRef.read u a.owner = b

/-- No grouping uses itself, however indirectly. -/
def AcyclicUses (c : Context) : Prop := Acyclic c.Uses

/-- Every grouping that a node or a grouping uses is there. -/
structure UsesExist (c : Context) : Prop where
  interiors : ∀ i ∈ c.interiors, ∀ u ∈ i.uses, (c.grouping? u i.head.owner).isSome
  groupings : ∀ m ∈ c.modules, ∀ g ∈ m.groupings, ∀ u ∈ g.uses, (c.grouping? u m.name).isSome

instance (c : Context) : Decidable c.UsesExist :=
  decidable_of_iff (_ ∧ _) ⟨fun h => ⟨h.1, h.2⟩, fun h => ⟨h.interiors, h.groupings⟩⟩

theorem mem_of_groupingAt? {c : Context} {a : GroupingRef} {g : Grouping Resolved}
    (h : c.groupingAt? a = some g) :
    ∃ m ∈ c.modules, m.name = a.owner ∧ g ∈ m.groupings ∧ g.name = a.name := by
  obtain ⟨m, hm, hg⟩ := Option.bind_eq_some_iff.1 h
  exact ⟨m, List.mem_of_find?_eq_some hm, by simpa using List.find?_some hm,
    List.mem_of_find?_eq_some hg, by simpa using List.find?_some hg⟩

/-- Groupings that only use groupings of lower rank do not use themselves. -/
theorem acyclicUses_of_rank {c : Context} (rank : GroupingRef → Nat)
    (h : ∀ m ∈ c.modules, ∀ g ∈ m.groupings, ∀ u ∈ g.uses,
      rank (.read u m.name) < rank ⟨m.name, g.name⟩) : c.AcyclicUses := by
  refine Acyclic.of_rank rank ?_
  rintro a b ⟨g, hg, u, hu, rfl⟩
  obtain ⟨m, hm, ho, hmem, hn⟩ := mem_of_groupingAt? hg
  have hlt := h m hm g hmem u hu
  rwa [ho, hn] at hlt

theorem UsesExist.of_groupingAt? {c : Context} (h : c.UsesExist) {a : GroupingRef}
    {g : Grouping Resolved} (hg : c.groupingAt? a = some g) {u : String} (hu : u ∈ g.uses) :
    (c.grouping? u a.owner).isSome := by
  obtain ⟨m, hm, ho, hmem, -⟩ := mem_of_groupingAt? hg
  rw [← ho]
  exact h.groupings m hm g hmem u hu

theorem interiors_of_groupingAt? {c : Context} {a : GroupingRef} {g : Grouping Resolved}
    (h : c.groupingAt? a = some g) : Node.interiors g.children ⊆ c.interiors := by
  intro i hi
  obtain ⟨m, hm, -, hg, -⟩ := mem_of_groupingAt? h
  exact List.mem_flatMap.2
    ⟨m, hm, List.mem_append_right _ (List.mem_flatMap.2 ⟨g, hg, hi⟩)⟩

def groupingRefs (c : Context) : List GroupingRef :=
  c.modules.flatMap fun m => m.groupings.map fun g => ⟨m.name, g.name⟩

theorem mem_groupingRefs {c : Context} {a : GroupingRef} {g : Grouping Resolved}
    (h : c.groupingAt? a = some g) : a ∈ c.groupingRefs := by
  obtain ⟨m, hm, ho, hg, hn⟩ := mem_of_groupingAt? h
  refine List.mem_flatMap.2 ⟨m, hm, List.mem_map.2 ⟨g, hg, ?_⟩⟩
  rw [ho, hn]

theorem AcyclicUses.wellFounded {c : Context} (h : c.AcyclicUses) : WellFounded (flip c.Uses) :=
  Acyclic.wellFounded h c.groupingRefs fun _ _ ⟨_, hg, _⟩ => mem_groupingRefs hg

def groupingPaths (c : Context) : List SchemaPath := c.groupingRefs.map GroupingRef.path

theorem length_groupingPaths (c : Context) : c.groupingPaths.length = c.groupingCount := by
  simp [groupingPaths, groupingRefs, groupingCount, List.length_flatMap]

theorem path_mem_groupingPaths {c : Context} {a : GroupingRef} {g : Grouping Resolved}
    (h : c.groupingAt? a = some g) : a.path ∈ c.groupingPaths :=
  List.mem_map_of_mem (mem_groupingRefs h)

/-- No more groupings can be under way at once than there are. -/
theorem length_le_groupingCount {c : Context} {ps : List SchemaPath} (hnodup : ps.Nodup)
    (h : ps ⊆ c.groupingPaths) : ps.length ≤ c.groupingCount :=
  c.length_groupingPaths ▸ hnodup.length_le_of_subset h

/-- If as many are under way as there are, then every grouping is. -/
theorem mem_of_groupingCount_le {c : Context} {ps : List SchemaPath} (hnodup : ps.Nodup)
    (h : ps ⊆ c.groupingPaths) (hfull : c.groupingCount ≤ ps.length) {p : SchemaPath}
    (hp : p ∈ c.groupingPaths) : p ∈ ps := by
  by_contra hnew
  have hlen := length_le_groupingCount (List.nodup_cons.2 ⟨hnew, hnodup⟩)
    (List.cons_subset.2 ⟨hp, h⟩)
  rw [List.length_cons] at hlen
  omega

end Context

end YangApi
