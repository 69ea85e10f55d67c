import Mathlib.Data.List.Basic
import YangApi.Schema.Context

/-! The containers and lists of a tree, and induction over its levels: a level is a list of nodes,
and the nodes of a choice's cases stand at the level of the choice. -/

namespace YangApi

section levels

variable {α : Type} {P : List (Node α) → Prop}

mutual

/-- Induction from the innermost levels outwards; the cases of a choice are levels of their own. -/
@[elab_as_elim]
theorem Node.levels (nil : P []) (cons : ∀ n ns, P [n] → P ns → P (n :: ns))
    (inner : ∀ h shape uses cs, P cs → P [.inner h shape uses cs])
    (choice : ∀ h (ks : Cases α), (∀ k ∈ ks, P k.2) → P [.choice h ks])
    (leaf : ∀ h t m v, P [.leaf h t m v]) (leafList : ∀ h t, P [.leafList h t])
    (anyxml : ∀ h, P [.anyxml h]) : ∀ ns, P ns
  | [] => nil
  | n :: ns => cons n ns (Node.level nil cons inner choice leaf leafList anyxml n)
      (Node.levels nil cons inner choice leaf leafList anyxml ns)

theorem Node.level (nil : P []) (cons : ∀ n ns, P [n] → P ns → P (n :: ns))
    (inner : ∀ h shape uses cs, P cs → P [.inner h shape uses cs])
    (choice : ∀ h (ks : Cases α), (∀ k ∈ ks, P k.2) → P [.choice h ks])
    (leaf : ∀ h t m v, P [.leaf h t m v]) (leafList : ∀ h t, P [.leafList h t])
    (anyxml : ∀ h, P [.anyxml h]) : ∀ n, P [n]
  | .inner h shape uses cs =>
    inner h shape uses cs (Node.levels nil cons inner choice leaf leafList anyxml cs)
  | .choice h ks =>
    choice h ks (Node.levelsOfCases nil cons inner choice leaf leafList anyxml ks)
  | .leaf h t m v => leaf h t m v
  | .leafList h t => leafList h t
  | .anyxml h => anyxml h

theorem Node.levelsOfCases (nil : P []) (cons : ∀ n ns, P [n] → P ns → P (n :: ns))
    (inner : ∀ h shape uses cs, P cs → P [.inner h shape uses cs])
    (choice : ∀ h (ks : Cases α), (∀ k ∈ ks, P k.2) → P [.choice h ks])
    (leaf : ∀ h t m v, P [.leaf h t m v]) (leafList : ∀ h t, P [.leafList h t])
    (anyxml : ∀ h, P [.anyxml h]) : ∀ ks : Cases α, ∀ k ∈ ks, P k.2
  | [], _, hk => absurd hk List.not_mem_nil
  | (_, ns) :: ks, k, hk =>
    (List.mem_cons.1 hk).elim
      (fun e => e ▸ Node.levels nil cons inner choice leaf leafList anyxml ns)
      (Node.levelsOfCases nil cons inner choice leaf leafList anyxml ks k)

end

end levels

namespace Node

theorem flattenCases_eq (b : Bool) (ks : Cases Resolved) :
    flattenCases b ks = ks.flatMap fun k => flattenAll b k.2 := by
  induction ks with
  | nil => rfl
  | cons k ks ih => rw [flattenCases, List.flatMap_cons, ih]

theorem preorderCases_eq {α : Type} (ks : Cases α) :
    preorderCases ks = ks.flatMap fun k => preorderAll k.2 := by
  induction ks with
  | nil => rfl
  | cons k ks ih => rw [preorderCases, List.flatMap_cons, ih]

@[simp] theorem flattenAll_singleton (b : Bool) (n : Node Resolved) :
    flattenAll b [n] = n.flatten b := by
  simp [flattenAll]

@[simp] theorem preorderAll_singleton {α : Type} (n : Node α) : preorderAll [n] = n.preorder := by
  simp [preorderAll]

theorem flattenAll_cons (b : Bool) (n : Node Resolved) (ns : List (Node Resolved)) :
    flattenAll b (n :: ns) = flattenAll b [n] ++ flattenAll b ns := by
  simp [flattenAll]

def flat (ns : List (Node Resolved)) : List (Node Resolved) := (flattenAll false ns).map Prod.fst

theorem map_fst_flattenAll (b : Bool) (ns : List (Node Resolved)) :
    (flattenAll b ns).map Prod.fst = flat ns := by
  unfold flat
  generalize false = b'
  induction ns using Node.levels generalizing b b' with
  | nil => rfl
  | cons n ns ihn ihns =>
    simp only [flattenAll, List.map_append, ihns b b']
    rw [show (n.flatten b).map Prod.fst = (n.flatten b').map Prod.fst by simpa using ihn b b']
  | choice r ks ih =>
    simp only [flattenAll_singleton, flatten, flattenCases_eq, List.map_flatMap]
    exact List.flatMap_congr fun k hk => ih k hk _ _
  | inner | leaf | leafList | anyxml => simp [flatten]

theorem mem_flat_of_mem_flattenAll {ns : List (Node Resolved)} {b : Bool}
    {e : Node Resolved × Bool} (h : e ∈ flattenAll b ns) : e.1 ∈ flat ns := by
  rw [← map_fst_flattenAll b]
  exact List.mem_map_of_mem h

theorem flat_cons (n : Node Resolved) (ns : List (Node Resolved)) :
    flat (n :: ns) = flat [n] ++ flat ns := by
  simp [flat, flattenAll]

theorem flat_choice (r : Resolved) (ks : Cases Resolved) :
    flat [.choice r ks] = ks.flatMap fun k => flat k.2 := by
  unfold flat
  rw [flattenAll_singleton, flatten, flattenCases_eq, List.map_flatMap]
  exact List.flatMap_congr fun k _ => map_fst_flattenAll _ k.2

theorem preorderAll_cons {α : Type} (n : Node α) (ns : List (Node α)) :
    preorderAll (n :: ns) = preorderAll [n] ++ preorderAll ns := by
  simp [preorderAll]

theorem mem_preorderAll_of_mem_flat {ns : List (Node Resolved)} {n : Node Resolved}
    (h : n ∈ flat ns) : n ∈ preorderAll ns := by
  induction ns using Node.levels with
  | nil => simp [flat, flattenAll] at h
  | cons m ns ihm ihns =>
    rw [flat_cons, List.mem_append] at h
    rw [preorderAll_cons, List.mem_append]
    exact h.imp ihm ihns
  | choice r ks ih =>
    rw [flat_choice, List.mem_flatMap] at h
    obtain ⟨k, hk, h⟩ := h
    simp only [preorderAll_singleton, preorder, preorderCases_eq, List.mem_cons, List.mem_flatMap]
    exact .inr ⟨k, hk, ih k hk h⟩
  | inner | leaf | leafList | anyxml =>
    simp only [flat, flattenAll_singleton, flatten, List.map_cons, List.map_nil,
      List.mem_singleton] at h
    simp [preorder, h]

theorem preorder_subset_preorderAll {α : Type} {ns : List (Node α)} {n : Node α}
    (h : n ∈ preorderAll ns) : n.preorder ⊆ preorderAll ns := by
  induction ns using Node.levels with
  | nil => simp [preorderAll] at h
  | cons m ns ihm ihns =>
    rw [preorderAll_cons, List.mem_append] at h
    rw [preorderAll_cons]
    rcases h with h | h
    · exact List.Subset.trans (ihm h) (List.subset_append_left _ _)
    · exact List.Subset.trans (ihns h) (List.subset_append_right _ _)
  | inner h' shape uses cs ih =>
    simp only [preorderAll_singleton, preorder, List.mem_cons] at h
    rcases h with rfl | h
    · simp [preorder]
    · simpa [preorder] using List.Subset.trans (ih h) (List.subset_cons_self _ _)
  | choice h' ks ih =>
    simp only [preorderAll_singleton, preorder, preorderCases_eq, List.mem_cons,
      List.mem_flatMap] at h
    rcases h with rfl | ⟨k, hk, h⟩
    · simp [preorder]
    · intro m hm
      simp only [preorderAll_singleton, preorder, preorderCases_eq, List.mem_cons, List.mem_flatMap]
      exact .inr ⟨k, hk, ih k hk h hm⟩
  | leaf | leafList | anyxml =>
    simp only [preorderAll_singleton, preorder, List.mem_singleton] at h
    simp [preorder, h]

def interiors (ns : List (Node Resolved)) : List Interior := (preorderAll ns).filterMap interior?

theorem interiors_cons (n : Node Resolved) (ns : List (Node Resolved)) :
    interiors (n :: ns) = interiors [n] ++ interiors ns := by
  simp [interiors, preorderAll]

theorem interiors_inner (r : Resolved) (shape : Shape) (uses : List String)
    (cs : List (Node Resolved)) :
    interiors [.inner r shape uses cs] = ⟨r, shape, uses, cs⟩ :: interiors cs := by
  rw [interiors, preorderAll_singleton, preorder, List.filterMap_cons_some (by rfl), interiors]

theorem interiors_choice (r : Resolved) (ks : Cases Resolved) :
    interiors [.choice r ks] = ks.flatMap fun k => interiors k.2 := by
  rw [interiors, preorderAll_singleton, preorder, List.filterMap_cons_none (by rfl),
    preorderCases_eq, List.filterMap_flatMap]
  rfl

theorem mem_interiors {ns : List (Node Resolved)} {i : Interior} :
    i ∈ interiors ns ↔ ∃ n ∈ preorderAll ns, n.interior? = some i := by
  simp [interiors]

theorem interior?_eq_some {n : Node Resolved} {i : Interior} :
    n.interior? = some i ↔ n = .inner i.head i.shape i.uses i.children := by
  obtain ⟨r, shape, uses, cs⟩ := i
  cases n <;> simp [interior?]

theorem interiors_subset_of_mem_preorderAll {ns : List (Node Resolved)} {r : Resolved}
    {shape : Shape} {uses : List String} {cs : List (Node Resolved)}
    (h : .inner r shape uses cs ∈ preorderAll ns) : interiors cs ⊆ interiors ns := by
  intro i hi
  obtain ⟨n, hn, hi⟩ := mem_interiors.1 hi
  refine mem_interiors.2 ⟨n, preorder_subset_preorderAll h ?_, hi⟩
  simp [preorder, hn]

theorem mem_interiors_of_mem_flat {ns : List (Node Resolved)} {n : Node Resolved} {i : Interior}
    (h : n ∈ flat ns) (hi : n.interior? = some i) : i ∈ interiors ns :=
  mem_interiors.2 ⟨n, mem_preorderAll_of_mem_flat h, hi⟩

end Node

namespace Interior

/-- Everything below a container or list that is one itself. -/
def below (i : Interior) : List Interior := Node.interiors i.children

/-- The containers and lists that its own properties refer to. -/
def inside (i : Interior) : List Interior := (Node.flat i.children).filterMap Node.interior?

theorem inside_subset_below (i : Interior) : i.inside ⊆ i.below := by
  intro j hj
  obtain ⟨n, hn, hj⟩ := List.mem_filterMap.1 hj
  exact Node.mem_interiors_of_mem_flat hn hj

theorem below_subset {ns : List (Node Resolved)} {i : Interior} (h : i ∈ Node.interiors ns) :
    i.below ⊆ Node.interiors ns := by
  obtain ⟨n, hn, hi⟩ := Node.mem_interiors.1 h
  exact Node.interiors_subset_of_mem_preorderAll (Node.interior?_eq_some.1 hi ▸ hn)

end Interior

/-- What holds of the containers and lists of a level, and passes from each to those inside it,
holds at every depth. -/
theorem Node.interiors_induction {D : Interior → Prop} (step : ∀ i, D i → ∀ j ∈ i.inside, D j)
    {ns : List (Node Resolved)} (base : ∀ i ∈ (Node.flat ns).filterMap Node.interior?, D i) :
    ∀ i ∈ Node.interiors ns, D i := by
  induction ns using Node.levels with
  | nil => simp [interiors, preorderAll]
  | cons n ns ihn ihns =>
    rw [flat_cons, List.filterMap_append, List.forall_mem_append] at base
    rw [interiors_cons, List.forall_mem_append]
    exact ⟨ihn base.1, ihns base.2⟩
  | inner r shape uses cs ih =>
    have htop : D ⟨r, shape, uses, cs⟩ := base _ (by simp [flat, flatten, interior?])
    rw [interiors_inner, List.forall_mem_cons]
    exact ⟨htop, ih fun j hj => step _ htop j hj⟩
  | choice r ks ih =>
    rw [flat_choice, List.filterMap_flatMap] at base
    rw [interiors_choice]
    intro i hi
    obtain ⟨k, hk, hi⟩ := List.mem_flatMap.1 hi
    exact ih k hk (fun j hj => base j (List.mem_flatMap.2 ⟨k, hk, hj⟩)) i hi
  | leaf | leafList | anyxml => simp [interiors, preorder, interior?]

theorem Interior.below_induction {D : Interior → Prop} (step : ∀ i, D i → ∀ j ∈ i.inside, D j)
    {i : Interior} (h : D i) : ∀ j ∈ i.below, D j :=
  Node.interiors_induction step (step i h)

end YangApi
