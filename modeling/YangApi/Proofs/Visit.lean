import YangApi.Generator
import YangApi.Proofs.Schema.Placed

/-! Which nodes a run goes through: the ones that get paths are the ones that get definitions. -/

namespace YangApi

namespace Visit

def defines : Visit → List Interior
  | .path _ _ => []
  | .define i => [i]
  | .rpc r _ => r.sides.map RpcSide.interior

def mentions : Visit → List Interior
  | .path i _ => [i]
  | .define _ => []
  | .rpc r _ => r.sides.map RpcSide.interior

end Visit

namespace Node

variable {selected : List String} {owner : String}

theorem visitsCases_eq (segment : Segment) (ks : Cases Resolved) :
    visitsCases selected owner segment ks =
      ks.flatMap fun k => visitsAll selected owner segment k.2 := by
  induction ks with
  | nil => rfl
  | cons k ks ih => rw [visitsCases, List.flatMap_cons, ih]

theorem visitsAll_cons (segment : Segment) (n : Node Resolved) (ns : List (Node Resolved)) :
    visitsAll selected owner segment (n :: ns) =
      visitsAll selected owner segment [n] ++ visitsAll selected owner segment ns := by
  simp [visitsAll]

theorem visitsAll_inner (segment : Segment) (r : Resolved) (shape : Shape) (uses : List String)
    (cs : List (Node Resolved)) :
    visitsAll selected owner segment [.inner r shape uses cs] =
      if r.owner ∈ selected then
        .path ⟨r, shape, uses, cs⟩ (segment.pushNode owner r shape) ::
          (visitsAll selected owner (segment.pushNode owner r shape) cs ++
            [.define ⟨r, shape, uses, cs⟩])
      else [] := by
  simp [visitsAll, visits]

theorem visitsAll_choice (segment : Segment) (r : Resolved) (ks : Cases Resolved) :
    visitsAll selected owner segment [.choice r ks] =
      if r.owner ∈ selected then ks.flatMap fun k => visitsAll selected owner segment k.2
      else [] := by
  simp [visitsAll, visits, visitsCases_eq]

/-- A container or list gets paths if and only if it gets a definition. -/
theorem exists_path_iff_define {i : Interior} {segment : Segment} {ns : List (Node Resolved)} :
    (∃ s, .path i s ∈ visitsAll selected owner segment ns) ↔
      .define i ∈ visitsAll selected owner segment ns := by
  induction ns using Node.levels generalizing segment with
  | nil => simp [visitsAll]
  | cons n ns ihn ihns =>
    rw [visitsAll_cons]
    simp only [List.mem_append, exists_or, ihn, ihns]
  | inner r shape uses cs ih =>
    rw [visitsAll_inner]
    split
    · simp only [List.mem_cons, List.mem_append, List.not_mem_nil, or_false, Visit.path.injEq,
        Visit.define.injEq, reduceCtorEq, false_or, exists_or, ih, exists_and_left, exists_eq,
        and_true]
      exact or_comm
    · simp
  | choice r ks ih =>
    rw [visitsAll_choice]
    split
    · simp only [List.mem_flatMap]
      constructor
      · rintro ⟨s, k, hk, hs⟩
        exact ⟨k, hk, (ih k hk).1 ⟨s, hs⟩⟩
      · rintro ⟨k, hk, hd⟩
        obtain ⟨s, hs⟩ := (ih k hk).2 hd
        exact ⟨s, k, hk, hs⟩
    · simp
  | leaf | leafList | anyxml => simp [visitsAll, visits]

theorem mem_interiors_of_define {i : Interior} {segment : Segment} {ns : List (Node Resolved)}
    (h : .define i ∈ visitsAll selected owner segment ns) : i ∈ interiors ns := by
  induction ns using Node.levels generalizing segment with
  | nil => simp [visitsAll] at h
  | cons n ns ihn ihns =>
    rw [visitsAll_cons, List.mem_append] at h
    rw [interiors_cons, List.mem_append]
    exact h.imp ihn ihns
  | inner r shape uses cs ih =>
    rw [visitsAll_inner] at h
    rw [interiors_inner, List.mem_cons]
    split at h
    · simp only [List.mem_cons, List.mem_append, List.not_mem_nil, or_false, reduceCtorEq,
        false_or, Visit.define.injEq] at h
      exact h.symm.imp id ih
    · simp at h
  | choice r ks ih =>
    rw [visitsAll_choice] at h
    rw [interiors_choice]
    split at h
    · obtain ⟨k, hk, h⟩ := List.mem_flatMap.1 h
      exact List.mem_flatMap.2 ⟨k, hk, ih k hk h⟩
    · simp at h
  | leaf | leafList | anyxml => simp [visitsAll, visits] at h

theorem not_rpc_mem_visitsAll {r : Rpc Resolved} {s segment : Segment} {ns : List (Node Resolved)} :
    .rpc r s ∉ visitsAll selected owner segment ns := by
  induction ns using Node.levels generalizing segment with
  | nil => simp [visitsAll]
  | cons n ns ihn ihns =>
    rw [visitsAll_cons, List.mem_append, not_or]
    exact ⟨ihn, ihns⟩
  | inner r shape uses cs ih =>
    rw [visitsAll_inner]
    split <;> simp [ih]
  | choice r ks ih =>
    rw [visitsAll_choice]
    split
    · simpa using fun name ns hk => ih (name, ns) hk
    · simp
  | leaf | leafList | anyxml => simp [visitsAll, visits]

end Node

namespace Module

variable {selected : List String} {elements : List ElementKind} {m : Module Resolved}

theorem mem_visits {v : Visit} : v ∈ m.visits selected elements ↔
    (.data ∈ elements ∧ v ∈ Node.visitsAll selected m.name (.ofModule m.name) m.children) ∨
      (.rpc ∈ elements ∧ ∃ r ∈ m.rpcs, Rpc.visit m.name r = v) := by
  unfold visits
  rw [List.mem_append]
  by_cases hd : ElementKind.data ∈ elements <;> by_cases hr : ElementKind.rpc ∈ elements <;>
    simp [hd, hr]

theorem exists_path_iff_define {i : Interior} :
    (∃ s, .path i s ∈ m.visits selected elements) ↔ .define i ∈ m.visits selected elements := by
  simp only [mem_visits, Rpc.visit, reduceCtorEq, and_false, exists_false, or_false,
    exists_and_left, Node.exists_path_iff_define]

theorem mem_dataInteriors_of_defines {v : Visit} (hv : v ∈ m.visits selected elements) {i : Interior}
    (hi : i ∈ v.defines) : i ∈ m.dataInteriors := by
  rcases mem_visits.1 hv with ⟨-, h⟩ | ⟨-, r, hr, rfl⟩
  · cases v with
    | path j s => simp [Visit.defines] at hi
    | define j =>
      obtain rfl := List.mem_singleton.1 hi
      exact List.mem_append_left _ (Node.mem_interiors_of_define h)
    | rpc r s => exact absurd h Node.not_rpc_mem_visitsAll
  · obtain ⟨side, hside, rfl⟩ := List.mem_map.1 hi
    refine List.mem_append_right _ (List.mem_flatMap.2 ⟨r, hr, List.mem_flatMap.2 ⟨side, hside, ?_⟩⟩)
    exact List.mem_cons_self ..

end Module

namespace Generator

theorem mem_of_select {c : Context} {names : List String} {ms : List (Module Resolved)}
    (h : select c names = .ok ms) {m : Module Resolved} (hm : m ∈ ms) : m ∈ c.modules := by
  induction names generalizing ms with
  | nil =>
    cases h
    cases hm
  | cons name names ih =>
    unfold select at h
    split at h
    · cases h
    · next m' hfind =>
      obtain ⟨rest, hrest, h⟩ := bind_eq_ok.1 h
      obtain rfl := pure_eq_ok.1 h
      rcases List.mem_cons.1 hm with rfl | hm
      · exact List.mem_of_find?_eq_some hfind
      · exact ih hrest (List.mem_filter.1 hm).1

theorem addAllTags_fields (g : Generator) (rs : List TagRule) :
    (g.addAllTags rs).context = g.context ∧ (g.addAllTags rs).config = g.config ∧
      (g.addAllTags rs).modules = g.modules := by
  unfold addAllTags
  induction rs generalizing g with
  | nil => exact ⟨rfl, rfl, rfl⟩
  | cons r rs ih => exact ih (g.addTags r)

theorem ofNames_fields {c : Context} {names : List String} {config : Config} {g : Generator}
    (h : ofNames c names config = .ok g) :
    g.context = c ∧ g.config = config ∧ ∀ m ∈ g.modules, m ∈ c.modules := by
  obtain ⟨modules, hmodules, h⟩ := bind_eq_ok.1 h
  dsimp only at h
  split at h
  · cases h
  · obtain rfl := pure_eq_ok.1 h
    obtain ⟨hcontext, hconfig, hms⟩ := addAllTags_fields { context := c, modules, config }
      (config.tags.map config.tagRule)
    refine ⟨hcontext, hconfig, fun m hm => mem_of_select hmodules ?_⟩
    rwa [hms] at hm

/-- A run over the small schema, whatever its configuration. -/
theorem exists_run_shop (config : Config) :
    ∃ c g, Context.resolve shop = .ok c ∧ ofNames c ["shop"] config = .ok g :=
  ⟨_, _, rfl, rfl⟩

/-- All visits of a run, each with the module that is gone through. -/
def visits (g : Generator) : List (String × Visit) :=
  g.modules.flatMap fun m => (m.visits g.moduleNames g.config.elements).map (Prod.mk m.name)

/-- A container, list or side of a procedure that the run goes through. -/
def Visited (g : Generator) (i : Interior) : Prop := ∃ v ∈ g.visits, i ∈ v.2.mentions

theorem mem_visits {g : Generator} {v : String × Visit} :
    v ∈ g.visits ↔ ∃ m ∈ g.modules, v.1 = m.name ∧
      v.2 ∈ m.visits g.moduleNames g.config.elements := by
  simp only [visits, List.mem_flatMap, List.mem_map]
  constructor
  · rintro ⟨m, hm, w, hw, rfl⟩
    exact ⟨m, hm, rfl, hw⟩
  · rintro ⟨m, hm, hv, hw⟩
    exact ⟨m, hm, v.2, hw, hv ▸ rfl⟩

/-- What the run goes through is what it defines. -/
theorem visited_iff_defines {g : Generator} {i : Interior} :
    g.Visited i ↔ ∃ v ∈ g.visits, i ∈ v.2.defines := by
  constructor
  · rintro ⟨⟨moduleName, v⟩, hv, hi⟩
    obtain ⟨m, hm, rfl, hvm⟩ := mem_visits.1 hv
    cases v with
    | define j => simp [Visit.mentions] at hi
    | rpc r s => exact ⟨_, hv, hi⟩
    | path j s =>
      obtain rfl := List.mem_singleton.1 hi
      have hdefine := Module.exists_path_iff_define.1 ⟨s, hvm⟩
      exact ⟨(m.name, .define i), mem_visits.2 ⟨m, hm, rfl, hdefine⟩, List.mem_singleton_self i⟩
  · rintro ⟨⟨moduleName, v⟩, hv, hi⟩
    obtain ⟨m, hm, rfl, hvm⟩ := mem_visits.1 hv
    cases v with
    | path j s => simp [Visit.defines] at hi
    | rpc r s => exact ⟨_, hv, hi⟩
    | define j =>
      obtain rfl := List.mem_singleton.1 hi
      obtain ⟨s, hs⟩ := Module.exists_path_iff_define.2 hvm
      exact ⟨(m.name, .path i s), mem_visits.2 ⟨m, hm, rfl, hs⟩, List.mem_singleton_self i⟩

theorem Visited.mem_dataInteriors {g : Generator} {i : Interior} (h : g.Visited i) :
    ∃ m ∈ g.modules, i ∈ m.dataInteriors := by
  obtain ⟨v, hv, hi⟩ := visited_iff_defines.1 h
  obtain ⟨m, hm, -, hvm⟩ := mem_visits.1 hv
  exact ⟨m, hm, Module.mem_dataInteriors_of_defines hvm hi⟩

theorem Visited.mem_interiors {g : Generator} {i : Interior} {c : Context}
    (hmodules : ∀ m ∈ g.modules, m ∈ c.modules) (h : g.Visited i) : i ∈ c.interiors := by
  obtain ⟨m, hm, hi⟩ := h.mem_dataInteriors
  exact List.mem_flatMap.2 ⟨m, hmodules m hm, List.mem_append_left _ hi⟩

end Generator

end YangApi
