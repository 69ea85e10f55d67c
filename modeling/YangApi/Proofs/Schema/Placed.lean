import YangApi.Proofs.Schema.Uses

/-! What resolution makes of a tree: every head is resolved at the level where its node stands.
Paths grow by one name a level, and an origin, once there, stays below its grouping. -/

namespace YangApi

/-- A level of resolved nodes at the scope `s`. -/
inductive Placed : Scope → List (Node Resolved) → Prop
  | nil (s : Scope) : Placed s []
  | cons {s : Scope} {n : Node Resolved} {ns : List (Node Resolved)} (head : Placed s [n])
    (tail : Placed s ns) : Placed s (n :: ns)
  | inner {s : Scope} {cs : List (Node Resolved)} (d : Declared) (shape : Shape)
    (uses : List String) (below : Placed (s.resolve d).scope cs) :
    Placed s [.inner (s.resolve d) shape uses cs]
  | choice {s : Scope} {ks : Cases Resolved} (d : Declared)
    (below : ∀ k ∈ ks, Placed ((s.resolve d).choiceScope s) k.2) :
    Placed s [.choice (s.resolve d) ks]
  | leaf (s : Scope) (d : Declared) (t : LeafType) (m : Bool) (v : Option String) :
    Placed s [.leaf (s.resolve d) t m v]
  | leafList (s : Scope) (d : Declared) (t : LeafType) : Placed s [.leafList (s.resolve d) t]
  | anyxml (s : Scope) (d : Declared) : Placed s [.anyxml (s.resolve d)]

section resolution

variable {α β ε : Type}

theorem bind_eq_ok {x : Except ε α} {f : α → Except ε β} {b : β} :
    (x >>= f) = .ok b ↔ ∃ a, x = .ok a ∧ f a = .ok b := by
  cases x <;> simp [bind, Except.bind]

theorem pure_eq_ok {a b : α} : (pure a : Except ε α) = .ok b ↔ a = b := by
  simp [pure, Except.pure]

theorem mem_of_mapM_eq_ok {f : α → Except ε β} {l : List α} {rs : List β} (h : l.mapM f = .ok rs)
    {r : β} (hr : r ∈ rs) : ∃ a ∈ l, f a = .ok r := by
  induction l generalizing rs with
  | nil =>
    cases h
    cases hr
  | cons a l ih =>
    rw [List.mapM_cons] at h
    obtain ⟨b, hb, h⟩ := bind_eq_ok.1 h
    obtain ⟨bs, hbs, h⟩ := bind_eq_ok.1 h
    obtain rfl := pure_eq_ok.1 h
    rcases List.mem_cons.1 hr with rfl | hr
    · exact ⟨a, List.mem_cons_self .., hb⟩
    · obtain ⟨c, hc, hfc⟩ := ih hbs hr
      exact ⟨c, List.mem_cons_of_mem _ hc, hfc⟩

end resolution

theorem Scope.resolveHead_eq_ok {s : Scope} {d : Declared} {r : Resolved}
    (h : s.resolveHead d = .ok r) : s.resolve d = r := by
  unfold resolveHead at h
  split at h
  · cases h
  · exact Except.ok.inj h

theorem Node.mem_of_resolveCases {s : Scope} {ks : Cases Declared} {rs : Cases Resolved}
    (h : resolveCases s ks = .ok rs) {k : String × List (Node Resolved)} (hk : k ∈ rs) :
    ∃ k' ∈ ks, resolveAll s k'.2 = .ok k.2 := by
  induction ks generalizing rs with
  | nil =>
    cases h
    cases hk
  | cons k' ks ih =>
    rw [resolveCases] at h
    obtain ⟨r, hr, h⟩ := bind_eq_ok.1 h
    obtain ⟨rest, hrest, h⟩ := bind_eq_ok.1 h
    obtain rfl := pure_eq_ok.1 h
    rcases List.mem_cons.1 hk with rfl | hk
    · exact ⟨k', List.mem_cons_self .., hr⟩
    · obtain ⟨k'', hk'', hr⟩ := ih hrest hk
      exact ⟨k'', List.mem_cons_of_mem _ hk'', hr⟩

theorem Node.placed_of_resolveAll {s : Scope} {ns : List (Node Declared)}
    {rs : List (Node Resolved)} (h : resolveAll s ns = .ok rs) : Placed s rs := by
  induction ns using Node.levels generalizing s rs with
  | nil =>
    cases h
    exact .nil s
  | cons n ns ihn ihns =>
    rw [resolveAll] at h
    obtain ⟨r, hr, h⟩ := bind_eq_ok.1 h
    obtain ⟨rest, hrest, h⟩ := bind_eq_ok.1 h
    obtain rfl := pure_eq_ok.1 h
    exact .cons (ihn (by simp [resolveAll, hr, bind, Except.bind, pure, Except.pure])) (ihns hrest)
  | inner d shape uses cs ih =>
    simp only [resolveAll, resolve, bind_eq_ok, pure_eq_ok, Except.ok.injEq] at h
    obtain ⟨_, ⟨r, hr, cs', hcs, rfl⟩, _, rfl, rfl⟩ := h
    obtain rfl := Scope.resolveHead_eq_ok hr
    exact .inner d shape uses (ih hcs)
  | choice d ks ih =>
    simp only [resolveAll, resolve, bind_eq_ok, pure_eq_ok, Except.ok.injEq] at h
    obtain ⟨_, ⟨r, hr, ks', hks, rfl⟩, _, rfl, rfl⟩ := h
    obtain rfl := Scope.resolveHead_eq_ok hr
    refine .choice d fun k hk => ?_
    obtain ⟨k', hk', hr⟩ := mem_of_resolveCases hks hk
    exact ih k' hk' hr
  | leaf d t m v =>
    simp only [resolveAll, resolve, bind_eq_ok, pure_eq_ok, Except.ok.injEq] at h
    obtain ⟨_, ⟨r, hr, rfl⟩, _, rfl, rfl⟩ := h
    obtain rfl := Scope.resolveHead_eq_ok hr
    exact .leaf s d t m v
  | leafList d t =>
    simp only [resolveAll, resolve, bind_eq_ok, pure_eq_ok, Except.ok.injEq] at h
    obtain ⟨_, ⟨r, hr, rfl⟩, _, rfl, rfl⟩ := h
    obtain rfl := Scope.resolveHead_eq_ok hr
    exact .leafList s d t
  | anyxml d =>
    simp only [resolveAll, resolve, bind_eq_ok, pure_eq_ok, Except.ok.injEq] at h
    obtain ⟨_, ⟨r, hr, rfl⟩, _, rfl, rfl⟩ := h
    obtain rfl := Scope.resolveHead_eq_ok hr
    exact .anyxml s d

namespace Scope

variable {s : Scope}

/-- The origin of a node has one more name than that of the scope it is declared in. -/
theorem origin_length_resolve (hs : ∀ o, s.origin = some o → 3 ≤ o.names.length) {d : Declared}
    {o : SchemaPath} (ho : (s.resolve d).origin = some o) : 4 ≤ o.names.length := by
  simp only [resolve] at ho
  split at ho
  · cases ho
    simp [GroupingRef.path, SchemaPath.child]
  · obtain ⟨o', ho', rfl⟩ := Option.map_eq_some_iff.1 ho
    have hlen := hs o' ho'
    simp only [SchemaPath.child, List.length_append, List.length_singleton]
    omega

theorem origin_isSome_resolve (hs : s.origin.isSome) (d : Declared) :
    (s.resolve d).origin.isSome := by
  simp only [resolve]
  split
  · rfl
  · simpa using hs

end Scope

namespace Placed

variable {s : Scope} {ns : List (Node Resolved)}

theorem path_through (h : Placed s ns) {i : Interior} (hi : i ∈ Node.interiors ns) :
    ∃ j ∈ (Node.flat ns).filterMap Node.interior?,
      s.path.names ++ [j.head.name] <+: i.head.path.names := by
  induction h with
  | nil s => simp [Node.interiors, Node.preorderAll] at hi
  | cons hn hns ihn ihns =>
    rw [Node.interiors_cons, List.mem_append] at hi
    rw [Node.flat_cons, List.filterMap_append]
    rcases hi with hi | hi
    · obtain ⟨j, hj, hp⟩ := ihn hi
      exact ⟨j, List.mem_append_left _ hj, hp⟩
    · obtain ⟨j, hj, hp⟩ := ihns hi
      exact ⟨j, List.mem_append_right _ hj, hp⟩
  | @inner s cs d shape uses hcs ih =>
    refine ⟨⟨s.resolve d, shape, uses, cs⟩, by simp [Node.flat, Node.flatten, Node.interior?], ?_⟩
    rw [Node.interiors_inner, List.mem_cons] at hi
    rcases hi with rfl | hi
    · exact List.prefix_refl _
    · obtain ⟨j, -, hp⟩ := ih hi
      exact (List.prefix_append _ _).trans hp
  | choice d hks ih =>
    rw [Node.interiors_choice] at hi
    obtain ⟨k, hk, hi⟩ := List.mem_flatMap.1 hi
    obtain ⟨j, hj, hp⟩ := ih k hk hi
    rw [Node.flat_choice, List.filterMap_flatMap]
    exact ⟨j, List.mem_flatMap.2 ⟨k, hk, hj⟩, hp⟩
  | leaf | leafList | anyxml => simp [Node.interiors, Node.preorder, Node.interior?] at hi

/-- An origin stands below its grouping, whose path has three names. -/
theorem origin_length (h : Placed s ns) (hs : ∀ o, s.origin = some o → 3 ≤ o.names.length)
    {i : Interior} (hi : i ∈ Node.interiors ns) {o : SchemaPath} (ho : i.head.origin = some o) :
    4 ≤ o.names.length := by
  induction h with
  | nil s => simp [Node.interiors, Node.preorderAll] at hi
  | cons hn hns ihn ihns =>
    rw [Node.interiors_cons, List.mem_append] at hi
    exact hi.elim (ihn hs) (ihns hs)
  | @inner s cs d shape uses hcs ih =>
    rw [Node.interiors_inner, List.mem_cons] at hi
    rcases hi with rfl | hi
    · exact Scope.origin_length_resolve hs ho
    · exact ih (fun o ho => Nat.le_of_succ_le (Scope.origin_length_resolve hs ho)) hi
  | @choice s ks d hks ih =>
    rw [Node.interiors_choice] at hi
    obtain ⟨k, hk, hi⟩ := List.mem_flatMap.1 hi
    refine ih k hk (fun o ho => ?_) hi
    obtain ⟨o', ho', rfl⟩ := Option.map_eq_some_iff.1 ho
    have hlen := Scope.origin_length_resolve hs ho'
    simp only [SchemaPath.parent, List.length_dropLast]
    omega
  | leaf | leafList | anyxml => simp [Node.interiors, Node.preorder, Node.interior?] at hi

theorem origin_isSome (h : Placed s ns) (hs : s.origin.isSome) {i : Interior}
    (hi : i ∈ Node.interiors ns) : i.head.origin.isSome := by
  induction h with
  | nil s => simp [Node.interiors, Node.preorderAll] at hi
  | cons hn hns ihn ihns =>
    rw [Node.interiors_cons, List.mem_append] at hi
    exact hi.elim (ihn hs) (ihns hs)
  | inner d shape uses hcs ih =>
    rw [Node.interiors_inner, List.mem_cons] at hi
    rcases hi with rfl | hi
    · exact Scope.origin_isSome_resolve hs d
    · exact ih (Scope.origin_isSome_resolve hs d) hi
  | choice d hks ih =>
    rw [Node.interiors_choice] at hi
    obtain ⟨k, hk, hi⟩ := List.mem_flatMap.1 hi
    refine ih k hk ?_ hi
    simpa [Resolved.choiceScope] using Scope.origin_isSome_resolve hs d
  | leaf | leafList | anyxml => simp [Node.interiors, Node.preorder, Node.interior?] at hi

end Placed

/-- How the parts of a module are placed. -/
structure Module.Placed (m : Module Resolved) : Prop where
  children : YangApi.Placed (.ofModule m.name) m.children
  groupings : ∀ g ∈ m.groupings, YangApi.Placed (.ofGrouping m.name g.name) g.children
  sides : ∀ r ∈ m.rpcs, ∀ s ∈ r.sides, s.head.origin = none ∧
    s.head.path = ⟨[m.name, r.name, s.head.name]⟩ ∧ YangApi.Placed s.head.scope s.children

theorem RpcSide.placed_of_resolve? {direction : Direction} {owner : String} {path : SchemaPath}
    {x : Option (RpcSide Declared)} {y : Option (RpcSide Resolved)}
    (h : resolve? direction owner path x = .ok y) {s : RpcSide Resolved} (hs : y = some s) :
    s.head.origin = none ∧ s.head.path = path.child s.head.name ∧
      Placed s.head.scope s.children := by
  subst hs
  cases x with
  | none => cases h
  | some d =>
    simp only [resolve?, resolve, bind_eq_ok, pure_eq_ok, Option.some.injEq] at h
    obtain ⟨_, ⟨cs, hcs, rfl⟩, rfl⟩ := h
    exact ⟨rfl, rfl, Node.placed_of_resolveAll hcs⟩

theorem Module.placed_of_resolve {d : Module Declared} {m : Module Resolved}
    (h : d.resolve = .ok m) : m.Placed := by
  simp only [resolve, bind_eq_ok, pure_eq_ok] at h
  obtain ⟨children, hchildren, groupings, hgroupings, rpcs, hrpcs, rfl⟩ := h
  refine ⟨Node.placed_of_resolveAll hchildren, fun g hg => ?_, fun r hr s hs => ?_⟩
  · obtain ⟨g', -, hg'⟩ := mem_of_mapM_eq_ok hgroupings hg
    simp only [Grouping.resolve, bind_eq_ok, pure_eq_ok] at hg'
    obtain ⟨cs, hcs, rfl⟩ := hg'
    exact Node.placed_of_resolveAll hcs
  · obtain ⟨r', -, hr'⟩ := mem_of_mapM_eq_ok hrpcs hr
    simp only [Rpc.resolve, bind_eq_ok, pure_eq_ok] at hr'
    obtain ⟨input, hinput, output, houtput, rfl⟩ := hr'
    simp only [Rpc.sides, List.mem_filterMap, List.mem_cons, List.not_mem_nil, or_false, id_eq,
      exists_eq_right] at hs
    rcases hs with hs | hs
    · exact RpcSide.placed_of_resolve? hinput hs.symm
    · exact RpcSide.placed_of_resolve? houtput hs.symm

namespace Module.Placed

variable {m : Module Resolved} {i : Interior}

theorem origin_length (h : m.Placed) (hi : i ∈ m.interiors) {o : SchemaPath}
    (ho : i.head.origin = some o) : 4 ≤ o.names.length := by
  rcases List.mem_append.1 hi with hi | hi
  · rcases List.mem_append.1 hi with hi | hi
    · exact h.children.origin_length (by simp [Scope.ofModule]) hi ho
    · obtain ⟨r, hr, hi⟩ := List.mem_flatMap.1 hi
      obtain ⟨s, hs, hi⟩ := List.mem_flatMap.1 hi
      obtain ⟨horigin, -, hbelow⟩ := h.sides r hr s hs
      rcases List.mem_cons.1 hi with rfl | hi
      · simp [RpcSide.interior, horigin] at ho
      · exact hbelow.origin_length (by simp [Resolved.scope, horigin]) hi ho
  · obtain ⟨g, hg, hi⟩ := List.mem_flatMap.1 hi
    exact (h.groupings g hg).origin_length (by simp [Scope.ofGrouping, GroupingRef.path]) hi ho

/-- Outside groupings, the second name of a path is that of a top node or of a procedure. -/
theorem path_data (h : m.Placed) (hi : i ∈ m.dataInteriors) :
    (∃ j ∈ (Node.flat m.children).filterMap Node.interior?,
      [m.name, j.head.name] <+: i.head.path.names) ∨
      ∃ r ∈ m.rpcs, [m.name, r.name] <+: i.head.path.names := by
  rcases List.mem_append.1 hi with hi | hi
  · exact .inl (h.children.path_through hi)
  · obtain ⟨r, hr, hi⟩ := List.mem_flatMap.1 hi
    obtain ⟨s, hs, hi⟩ := List.mem_flatMap.1 hi
    obtain ⟨-, hside, hbelow⟩ := h.sides r hr s hs
    have hprefix : [m.name, r.name] <+: s.head.path.names := ⟨[s.head.name], by rw [hside]; rfl⟩
    refine .inr ⟨r, hr, ?_⟩
    rcases List.mem_cons.1 hi with rfl | hi
    · exact hprefix
    · obtain ⟨j, -, hp⟩ := hbelow.path_through hi
      exact hprefix.trans ((List.prefix_append _ _).trans hp)

theorem path_second (h : m.Placed) (hi : i ∈ m.interiors) (ho : i.head.origin = none) :
    (∃ j ∈ (Node.flat m.children).filterMap Node.interior?,
      [m.name, j.head.name] <+: i.head.path.names) ∨
      ∃ r ∈ m.rpcs, [m.name, r.name] <+: i.head.path.names := by
  rcases List.mem_append.1 hi with hi | hi
  · exact h.path_data hi
  · obtain ⟨g, hg, hi⟩ := List.mem_flatMap.1 hi
    have hsome := (h.groupings g hg).origin_isSome rfl hi
    simp [ho] at hsome

end Module.Placed

namespace Context

variable {c : Context}

theorem resolve_eq_ok {ms : List (Module Declared)} : resolve ms = .ok c ↔
    duplicate? [] (ms.map Module.name) = none ∧ ms.mapM Module.resolve = .ok c.modules := by
  unfold resolve
  split
  · next hdup => simp [hdup]
  · next hnone =>
    simp only [bind_eq_ok, pure_eq_ok, hnone, true_and]
    constructor
    · rintro ⟨modules, hmodules, rfl⟩
      exact hmodules
    · intro hmodules
      exact ⟨c.modules, hmodules, rfl⟩

theorem placed_of_resolve {ms : List (Module Declared)} (h : resolve ms = .ok c)
    {m : Module Resolved} (hm : m ∈ c.modules) : m.Placed := by
  obtain ⟨d, -, hd⟩ := mem_of_mapM_eq_ok (resolve_eq_ok.1 h).2 hm
  exact Module.placed_of_resolve hd

/-- No container or list at the top of a module and no procedure has the name that marks the paths
of groupings. -/
def SparesGroupings (c : Context) : Prop := ∀ m ∈ c.modules,
  (∀ i ∈ (Node.flat m.children).filterMap Node.interior?, i.head.name ≠ "grouping") ∧
    ∀ r ∈ m.rpcs, r.name ≠ "grouping"

instance (c : Context) : Decidable c.SparesGroupings :=
  inferInstanceAs (Decidable (∀ m ∈ c.modules, _ ∧ _))

/-- Then no definition path is that of a grouping: an origin is longer, and the second name of any
other path is one that is spared. -/
theorem SparesGroupings.definitionPath_ne (h : c.SparesGroupings)
    (hplaced : ∀ m ∈ c.modules, m.Placed) {i : Interior} (hi : i ∈ c.interiors)
    (a : GroupingRef) : i.head.definitionPath ≠ a.path := by
  intro hpath
  obtain ⟨m, hm, hi⟩ := List.mem_flatMap.1 hi
  unfold Resolved.definitionPath at hpath
  cases ho : i.head.origin with
  | some o =>
    have hlen := (hplaced m hm).origin_length hi ho
    rw [ho, Option.getD_some] at hpath
    simp [hpath, GroupingRef.path] at hlen
  | none =>
    rw [ho, Option.getD_none] at hpath
    obtain ⟨j, hj, t, ht⟩ | ⟨r, hr, t, ht⟩ := (hplaced m hm).path_second hi ho
    · simp only [hpath, GroupingRef.path, List.cons_append, List.cons.injEq] at ht
      exact (h m hm).1 j hj ht.2.1
    · simp only [hpath, GroupingRef.path, List.cons_append, List.cons.injEq] at ht
      exact (h m hm).2 r hr ht.2.1

end Context

/-- A small schema. The grouping of addresses only uses the one of places, so that its definition is
an alias; the audit of an order belongs to a module that is not there. -/
def shop : List (Module Declared) :=
  let head (name : String) : Declared := ⟨name, none, none, none, none⟩
  let text (d : Declared) : Node Declared := .leaf d .string false none
  let order : Node Declared := .inner (head "order") (.list ["id"]) ["address"]
    [text (head "id"), text { head "town" with grouping := some "address" },
      .choice (head "payment")
        [("card", [text (head "number")]),
          ("cash", [.inner (head "change") (.container false) [] [text (head "amount")]])],
      .inner { head "audit" with owner := some "log" } (.container false) [] [text (head "by")]]
  [{ name := "shop", xmlNamespace := none, abbreviation := none, revision := none
     description := none
     children := [order]
     rpcs := [⟨"cancel", none, none, some ⟨head "", [text (head "id")], [], false⟩, none⟩]
     groupings := [⟨"address", none, [text { head "town" with grouping := some "place" }], ["place"]⟩,
      ⟨"place", none, [text (head "town")], []⟩] }]

theorem exists_resolve_shop : ∃ c, Context.resolve shop = .ok c := ⟨_, rfl⟩

section shop

variable {c : Context} (h : Context.resolve shop = .ok c)

include h

theorem acyclicUses_shop : c.AcyclicUses := by
  cases h
  exact Context.acyclicUses_of_rank (fun a => if a.name = "address" then 1 else 0) (by decide)

theorem usesExist_shop : c.UsesExist := by
  cases h
  decide

theorem sparesGroupings_shop : c.SparesGroupings := by
  cases h
  decide

end shop

end YangApi
