import Mathlib.Data.List.Nodup
import YangApi.Proofs.Schema.Placed

/-! When paths tell nodes apart. A path holds local names only, so it takes siblings with different
local names, sides of a procedure with different names, and procedures that are called like no other
procedure and no top node. -/

namespace YangApi

/-- Siblings, choices flattened, have different labels; a procedure has the name of no other one and
of no top node. -/
structure Module.Apart {α : Type} (label : Resolved → α) (m : Module Resolved) : Prop where
  top : ((Node.flat m.children).map fun n => label n.head).Nodup
  inside : ∀ i ∈ m.dataInteriors, ((Node.flat i.children).map fun n => label n.head).Nodup
  rpcs : (m.rpcs.map Rpc.name).Nodup
  across : ∀ n ∈ Node.flat m.children, ∀ r ∈ m.rpcs, n.head.name ≠ r.name

instance {α : Type} [DecidableEq α] (label : Resolved → α) (m : Module Resolved) :
    Decidable (m.Apart label) :=
  decidable_of_iff (_ ∧ _ ∧ _ ∧ _) ⟨fun h => ⟨h.1, h.2.1, h.2.2.1, h.2.2.2⟩,
    fun h => ⟨h.top, h.inside, h.rpcs, h.across⟩⟩

def Module.SidesApart (m : Module Resolved) : Prop :=
  ∀ r ∈ m.rpcs, (r.sides.map fun s => s.head.name).Nodup

instance (m : Module Resolved) : Decidable m.SidesApart :=
  inferInstanceAs (Decidable (∀ r ∈ m.rpcs, _))

/-- Below `above`, the paths go on with one of `names`. -/
def Interior.Through (above names : List String) (is : List Interior) : Prop :=
  ∀ i ∈ is, ∃ a ∈ names, above ++ [a] <+: i.head.path.names

namespace Interior.Through

variable {above as bs : List String} {is js : List Interior}

theorem flatMap {α : Type} {l : List α} {f : α → List Interior} {label : α → List String}
    (h : ∀ a ∈ l, Through above (label a) (f a)) :
    Through above (l.flatMap label) (l.flatMap f) := by
  intro i hi
  obtain ⟨a, ha, hi⟩ := List.mem_flatMap.1 hi
  obtain ⟨b, hb, hp⟩ := h a ha i hi
  exact ⟨b, List.mem_flatMap.2 ⟨a, ha, hb⟩, hp⟩

theorem disjoint (h : Through above as is) (h' : Through above bs js) (hnames : as.Disjoint bs) :
    (is.map fun i => i.head.path).Disjoint (js.map fun i => i.head.path) := by
  intro p hi hj
  obtain ⟨i, his, rfl⟩ := List.mem_map.1 hi
  obtain ⟨j, hjs, hpath⟩ := List.mem_map.1 hj
  obtain ⟨a, ha, hpa⟩ := h i his
  obtain ⟨b, hb, hpb⟩ := h' j hjs
  rw [hpath] at hpb
  have hsame : above ++ [a] = above ++ [b] :=
    (List.prefix_of_prefix_length_le hpa hpb (by simp)).eq_of_length (by simp)
  obtain rfl : a = b := by simpa using hsame
  exact hnames ha hb

theorem nodup_append (h : Through above as is) (h' : Through above bs js) (hnames : as.Disjoint bs)
    (his : (is.map fun i => i.head.path).Nodup) (hjs : (js.map fun i => i.head.path).Nodup) :
    ((is ++ js).map fun i => i.head.path).Nodup := by
  rw [List.map_append]
  exact his.append hjs (h.disjoint h' hnames)

theorem nodup_flatMap {α : Type} {l : List α} {f : α → List Interior} {label : α → List String}
    (h : ∀ a ∈ l, Through above (label a) (f a)) (hnames : (l.flatMap label).Nodup)
    (hf : ∀ a ∈ l, ((f a).map fun i => i.head.path).Nodup) :
    ((l.flatMap f).map fun i => i.head.path).Nodup := by
  rw [List.map_flatMap]
  refine List.nodup_flatMap.2 ⟨hf, ?_⟩
  refine (List.nodup_flatMap.1 hnames).2.imp_of_mem fun {a b} ha hb hdisjoint => ?_
  exact (h a ha).disjoint (h b hb) hdisjoint

end Interior.Through

open Interior

/-- A node comes in front of what is below it, so that its path is another one. -/
theorem Interior.nodup_paths_cons {i : Interior} {names : List String} {is : List Interior}
    (h : Through i.head.path.names names is) (his : (is.map fun i => i.head.path).Nodup) :
    ((i :: is).map fun i => i.head.path).Nodup := by
  rw [List.map_cons]
  refine List.nodup_cons.2 ⟨fun hmem => ?_, his⟩
  obtain ⟨j, hj, hpath⟩ := List.mem_map.1 hmem
  obtain ⟨a, -, hp⟩ := h j hj
  have hlen := hp.length_le
  rw [hpath, List.length_append, List.length_singleton] at hlen
  omega

namespace Placed

variable {s : Scope} {ns : List (Node Resolved)}

theorem through (h : Placed s ns) :
    Through s.path.names ((Node.flat ns).map fun n => n.head.name) (Node.interiors ns) := by
  intro i hi
  obtain ⟨j, hj, hp⟩ := h.path_through hi
  obtain ⟨n, hn, hj⟩ := List.mem_filterMap.1 hj
  obtain rfl := Node.interior?_eq_some.1 hj
  exact ⟨_, List.mem_map_of_mem hn, hp⟩

theorem nodup_paths (h : Placed s ns) (htop : ((Node.flat ns).map fun n => n.head.name).Nodup)
    (hinside : ∀ i ∈ Node.interiors ns, ((Node.flat i.children).map fun n => n.head.name).Nodup) :
    ((Node.interiors ns).map fun i => i.head.path).Nodup := by
  induction h with
  | nil s => simp [Node.interiors, Node.preorderAll]
  | cons hn hns ihn ihns =>
    rw [Node.flat_cons, List.map_append] at htop
    rw [Node.interiors_cons] at hinside ⊢
    rw [List.forall_mem_append] at hinside
    obtain ⟨htopn, htopns, hdisjoint⟩ := List.nodup_append'.1 htop
    exact hn.through.nodup_append hns.through hdisjoint (ihn htopn hinside.1)
      (ihns htopns hinside.2)
  | inner d shape uses hcs ih =>
    rw [Node.interiors_inner] at hinside ⊢
    rw [List.forall_mem_cons] at hinside
    exact nodup_paths_cons hcs.through (ih hinside.1 hinside.2)
  | choice d hks ih =>
    rw [Node.flat_choice, List.map_flatMap] at htop
    rw [Node.interiors_choice] at hinside ⊢
    refine Through.nodup_flatMap (fun k hk => (hks k hk).through) htop fun k hk => ?_
    exact ih k hk ((List.nodup_flatMap.1 htop).1 k hk)
      fun i hi => hinside i (List.mem_flatMap.2 ⟨k, hk, hi⟩)
  | leaf | leafList | anyxml => exact List.nodup_nil

end Placed

namespace Module.Placed

variable {m : Module Resolved}

theorem through_side (h : m.Placed) {r : Rpc Resolved} (hr : r ∈ m.rpcs) {side : RpcSide Resolved}
    (hside : side ∈ r.sides) : Through [m.name, r.name] [side.head.name] side.interiors := by
  obtain ⟨-, hpath, hbelow⟩ := h.sides r hr side hside
  have hhead : [m.name, r.name] ++ [side.head.name] = side.head.path.names := by rw [hpath]; rfl
  intro i hi
  refine ⟨_, List.mem_singleton_self _, ?_⟩
  rw [hhead]
  rcases List.mem_cons.1 hi with rfl | hi
  · exact List.prefix_refl _
  · obtain ⟨a, -, hp⟩ := hbelow.through i hi
    exact (List.prefix_append _ _).trans hp

theorem through_rpc (h : m.Placed) {r : Rpc Resolved} (hr : r ∈ m.rpcs) :
    Through [m.name] [r.name] (r.sides.flatMap RpcSide.interiors) := by
  intro i hi
  obtain ⟨side, hside, hi⟩ := List.mem_flatMap.1 hi
  obtain ⟨a, -, hp⟩ := h.through_side hr hside i hi
  exact ⟨_, List.mem_singleton_self _, (List.prefix_append _ _).trans hp⟩

theorem through_module (h : m.Placed) : Through [] [m.name] m.dataInteriors := by
  intro i hi
  refine ⟨_, List.mem_singleton_self _, ?_⟩
  obtain ⟨j, -, hp⟩ | ⟨r, -, hp⟩ := h.path_data hi
  · exact (List.prefix_append [m.name] [j.head.name]).trans hp
  · exact (List.prefix_append [m.name] [r.name]).trans hp

theorem nodup_paths (h : m.Placed) (hapart : m.Apart Resolved.name) (hsides : m.SidesApart) :
    (m.dataInteriors.map fun i => i.head.path).Nodup := by
  have hinside : ∀ i ∈ m.dataInteriors, _ := hapart.inside
  rw [Module.dataInteriors, List.forall_mem_append] at hinside
  obtain ⟨hbelow, hside⟩ := hinside
  have hdata : ((Node.interiors m.children).map fun i => i.head.path).Nodup :=
    h.children.nodup_paths hapart.top hbelow
  have hside' : ∀ r ∈ m.rpcs, ∀ side ∈ r.sides,
      (side.interiors.map fun i => i.head.path).Nodup := by
    intro r hr side hs
    have hof : ∀ i ∈ side.interiors, ((Node.flat i.children).map fun n => n.head.name).Nodup :=
      fun i hi => hside i (List.mem_flatMap.2 ⟨r, hr, List.mem_flatMap.2 ⟨side, hs, hi⟩⟩)
    rw [RpcSide.interiors, List.forall_mem_cons] at hof
    have hplaced := (h.sides r hr side hs).2.2
    exact nodup_paths_cons hplaced.through (hplaced.nodup_paths hof.1 hof.2)
  have hrpc : ∀ r ∈ m.rpcs,
      ((r.sides.flatMap RpcSide.interiors).map fun i => i.head.path).Nodup := fun r hr =>
    Through.nodup_flatMap (fun side hs => h.through_side hr hs)
      (by rw [← List.map_eq_flatMap]; exact hsides r hr) (hside' r hr)
  refine Through.nodup_append h.children.through
    (.flatMap fun r hr => h.through_rpc hr) ?_ hdata
    (Through.nodup_flatMap (fun r hr => h.through_rpc hr)
      (by rw [← List.map_eq_flatMap]; exact hapart.rpcs) hrpc)
  rw [← List.map_eq_flatMap]
  intro a ha hb
  obtain ⟨n, hn, rfl⟩ := List.mem_map.1 ha
  obtain ⟨r, hr, hname⟩ := List.mem_map.1 hb
  exact hapart.across n hn r hr hname.symm

end Module.Placed

end YangApi
