import YangApi.Proofs.Schema.Inheritance

/-! Which lists of modules are refused, and with which error. A module name that stands twice is
reported before anything else. Otherwise the first node without a name is, in the order in which the
trees of the modules are gone through, by the path of the level where it stands. -/

namespace YangApi

section run

variable {α β ε : Type}

def refusal? : Except ε α → Option ε
  | .error e => some e
  | .ok _ => none

theorem refusal?_eq_some {x : Except ε α} {e : ε} : refusal? x = some e ↔ x = .error e := by
  cases x <;> simp [refusal?]

theorem refusal?_eq_none {x : Except ε α} : refusal? x = none ↔ ∃ a, x = .ok a := by
  cases x <;> simp [refusal?]

theorem refusal?_bind {x : Except ε α} {f : α → Except ε β} {second : Option ε}
    (h : ∀ a, x = .ok a → refusal? (f a) = second) :
    refusal? (x >>= f) = (refusal? x).or second := by
  cases x with
  | error e => rfl
  | ok a => exact h a rfl

/-- What is made of the result of a run adds no error. -/
theorem refusal?_bind_pure (x : Except ε α) (f : α → β) :
    refusal? (x >>= fun a => pure (f a)) = refusal? x := by
  cases x <;> rfl

end run

/-- A node of a tree at the path `base`, with what is around it. -/
structure Spot where
  base : SchemaPath
  around : Lineage Declared
  head : Declared

namespace Spot

def level (s : Spot) : SchemaPath := s.base.descend s.around.levelNames

/-- The complaint about the first node without a name. -/
def complaint? (ss : List Spot) : Option SchemaError :=
  (ss.find? fun s => s.head.name = "").map fun s => .unnamedNode s.level

theorem complaint?_append (ss ts : List Spot) :
    complaint? (ss ++ ts) = (complaint? ss).or (complaint? ts) := by
  rw [complaint?, List.find?_append, Option.map_or]
  rfl

/-- A run over a list ends with the first complaint about what its elements hold. -/
theorem complaint?_mapM {α β : Type} {f : α → Except SchemaError β} {spots : α → List Spot}
    {l : List α} (h : ∀ a ∈ l, refusal? (f a) = complaint? (spots a)) :
    refusal? (l.mapM f) = complaint? (l.flatMap spots) := by
  induction l with
  | nil => rfl
  | cons a l ih =>
    rw [List.forall_mem_cons] at h
    rw [List.mapM_cons, List.flatMap_cons, complaint?_append, ← h.1, ← ih h.2]
    exact refusal?_bind fun b _ => refusal?_bind_pure _ _

theorem complaint?_eq_none {ss : List Spot} :
    complaint? ss = none ↔ ∀ s ∈ ss, s.head.name ≠ "" := by
  simp [complaint?]

theorem complaint?_eq_some {ss : List Spot} {e : SchemaError} : complaint? ss = some e ↔
    ∃ before s after, ss = before ++ s :: after ∧ (∀ t ∈ before, t.head.name ≠ "") ∧
      s.head.name = "" ∧ .unnamedNode s.level = e := by
  simp only [complaint?, Option.map_eq_some_iff, List.find?_eq_some_iff_append, decide_eq_true_eq,
    Bool.not_eq_true', decide_eq_false_iff_not]
  constructor
  · rintro ⟨s, ⟨hs, before, after, rfl, hbefore⟩, rfl⟩
    exact ⟨before, s, after, rfl, hbefore, hs, rfl⟩
  · rintro ⟨before, s, after, rfl, hbefore, hs, rfl⟩
    exact ⟨s, ⟨hs, before, after, rfl, hbefore⟩, rfl⟩

end Spot

mutual

/-- All nodes of a tree, a node before those below it and the cases of a choice in their order. -/
def Node.spots (base : SchemaPath) (around : Lineage Declared) : Node Declared → List Spot
  | .inner d shape _ cs => ⟨base, around, d⟩ :: Node.spotsAll base (⟨d, some shape⟩ :: around) cs
  | .choice d ks => ⟨base, around, d⟩ :: Node.spotsCases base (⟨d, none⟩ :: around) ks
  | n => [⟨base, around, n.head⟩]

def Node.spotsAll (base : SchemaPath) (around : Lineage Declared) : List (Node Declared) → List Spot
  | [] => []
  | n :: ns => n.spots base around ++ Node.spotsAll base around ns

def Node.spotsCases (base : SchemaPath) (around : Lineage Declared) : Cases Declared → List Spot
  | [] => []
  | (_, ns) :: ks => Node.spotsAll base around ns ++ Node.spotsCases base around ks

end

namespace Node

variable {base : SchemaPath} {around : Lineage Declared}

theorem spotsCases_eq (ks : Cases Declared) :
    spotsCases base around ks = ks.flatMap fun k => spotsAll base around k.2 := by
  induction ks with
  | nil => rfl
  | cons k ks ih => rw [spotsCases, List.flatMap_cons, ih]

theorem spotsAll_cons (n : Node Declared) (ns : List (Node Declared)) :
    spotsAll base around (n :: ns) = spotsAll base around [n] ++ spotsAll base around ns := by
  simp [spotsAll]

theorem spotsAll_inner (d : Declared) (shape : Shape) (uses : List String)
    (cs : List (Node Declared)) : spotsAll base around [.inner d shape uses cs] =
      ⟨base, around, d⟩ :: spotsAll base (⟨d, some shape⟩ :: around) cs := by
  simp [spotsAll, spots]

theorem spotsAll_choice (d : Declared) (ks : Cases Declared) :
    spotsAll base around [.choice d ks] =
      ⟨base, around, d⟩ :: ks.flatMap fun k => spotsAll base (⟨d, none⟩ :: around) k.2 := by
  simp [spotsAll, spots, spotsCases_eq]

theorem map_head_spotsAll (ns : List (Node Declared)) :
    (spotsAll base around ns).map Spot.head = (preorderAll ns).map head := by
  induction ns using Node.levels generalizing around with
  | nil => rfl
  | cons n ns ihn ihns =>
    rw [spotsAll_cons, preorderAll_cons, List.map_append, List.map_append, ihn, ihns]
  | inner d shape uses cs ih =>
    rw [spotsAll_inner, preorderAll_singleton, preorder, List.map_cons, List.map_cons, ih]
    rfl
  | choice d ks ih =>
    rw [spotsAll_choice, preorderAll_singleton, preorder, preorderCases_eq, List.map_cons,
      List.map_cons, List.map_flatMap, List.map_flatMap, List.flatMap_congr fun k hk => ih k hk]
    rfl
  | leaf | leafList | anyxml => simp [spotsAll, spots, preorder, head]

theorem refusal?_resolveHead (g : Ground) (l : Lineage Declared) (d : Declared) :
    refusal? ((g.scope l).resolveHead d) = Spot.complaint? [⟨g.path, l, d⟩] := by
  have hpath : (g.scope l).path = Spot.level ⟨g.path, l, d⟩ := g.path_scope l
  unfold Scope.resolveHead
  by_cases h : d.name = ""
  · simp [Spot.complaint?, refusal?, h, hpath]
  · simp [Spot.complaint?, refusal?, h]

theorem refusal?_resolveAll_singleton (s : Scope) (n : Node Declared) :
    refusal? (resolveAll s [n]) = refusal? (n.resolve s) := by
  simp only [resolveAll]
  cases n.resolve s <;> rfl

/-- The induction is on the levels of the tree; `l` grows by the node that is gone into. -/
theorem refusal?_resolveAll (g : Ground) (l : Lineage Declared) (ns : List (Node Declared)) :
    refusal? (resolveAll (g.scope l) ns) = Spot.complaint? (spotsAll g.path l ns) := by
  induction ns using Node.levels generalizing l with
  | nil => rfl
  | cons n ns ihn ihns =>
    rw [spotsAll_cons, Spot.complaint?_append, ← ihn, ← ihns, refusal?_resolveAll_singleton,
      resolveAll]
    exact refusal?_bind fun r _ => refusal?_bind_pure _ _
  | inner d shape uses cs ih =>
    rw [refusal?_resolveAll_singleton, spotsAll_inner, ← List.singleton_append,
      Spot.complaint?_append, ← refusal?_resolveHead, ← ih, resolve]
    refine refusal?_bind fun r hr => ?_
    obtain rfl := Scope.resolveHead_eq_ok hr
    exact refusal?_bind_pure _ _
  | choice d ks ih =>
    rw [refusal?_resolveAll_singleton, spotsAll_choice, ← List.singleton_append,
      Spot.complaint?_append, ← refusal?_resolveHead, resolve]
    refine refusal?_bind fun r hr => ?_
    obtain rfl := Scope.resolveHead_eq_ok hr
    rw [refusal?_bind_pure, resolveCases_eq, ← g.scope_choice]
    refine Spot.complaint?_mapM fun k hk => ?_
    rw [refusal?_bind_pure, ih k hk]
  | leaf | leafList | anyxml =>
    rw [refusal?_resolveAll_singleton, resolve, refusal?_bind_pure, refusal?_resolveHead]
    rfl

end Node

/-- A tree of nodes and the path where it stands. -/
structure Tree where
  base : SchemaPath
  nodes : List (Node Declared)

def Tree.spots (t : Tree) : List Spot := Node.spotsAll t.base [] t.nodes

/-- A side is named for its direction unless it has a name. -/
def RpcSide.tree (moduleName : String) (r : Rpc Declared) (direction : Direction)
    (s : RpcSide Declared) : Tree :=
  ⟨⟨[moduleName, r.name, if s.head.name = "" then direction.name else s.head.name]⟩, s.children⟩

/-- What a procedure takes, and then what it gives. -/
def Rpc.trees (moduleName : String) (r : Rpc Declared) : List Tree :=
  r.input.toList.map (RpcSide.tree moduleName r .input) ++
    r.output.toList.map (RpcSide.tree moduleName r .output)

def Grouping.tree (moduleName : String) (g : Grouping Declared) : Tree :=
  ⟨(GroupingRef.read g.name moduleName).path, g.children⟩

/-- The data nodes of a module, then what its groupings hold, and then its procedures. -/
def Module.trees (m : Module Declared) : List Tree :=
  ⟨⟨[m.name]⟩, m.children⟩ ::
    (m.groupings.map (Grouping.tree m.name) ++ m.rpcs.flatMap (Rpc.trees m.name))

def Module.spots (m : Module Declared) : List Spot := m.trees.flatMap Tree.spots

theorem Module.spots_eq (m : Module Declared) : m.spots =
    Tree.spots ⟨⟨[m.name]⟩, m.children⟩ ++
      ((m.groupings.flatMap fun g => (g.tree m.name).spots) ++
        m.rpcs.flatMap fun r => (r.trees m.name).flatMap Tree.spots) := by
  simp only [spots, trees, List.flatMap_cons, List.flatMap_append, List.flatMap_map,
    List.flatMap_assoc]

theorem RpcSide.refusal?_resolve? (moduleName : String) (r : Rpc Declared) (direction : Direction)
    (x : Option (RpcSide Declared)) :
    refusal? (resolve? direction (r.owner.getD moduleName) ⟨[moduleName, r.name]⟩ x) =
      Spot.complaint?
        ((x.toList.map (RpcSide.tree moduleName r direction)).flatMap Tree.spots) := by
  cases x with
  | none => rfl
  | some s =>
    rw [Option.toList_some, List.map_singleton, List.flatMap_singleton, resolve?,
      refusal?_bind_pure, resolve, refusal?_bind_pure]
    exact Node.refusal?_resolveAll ⟨_, (s.tree moduleName r direction).base, none⟩ [] s.children

theorem Rpc.refusal?_resolve (moduleName : String) (r : Rpc Declared) :
    refusal? (r.resolve moduleName) =
      Spot.complaint? ((r.trees moduleName).flatMap Tree.spots) := by
  rw [trees, List.flatMap_append, Spot.complaint?_append, ← RpcSide.refusal?_resolve?,
    ← RpcSide.refusal?_resolve?, resolve]
  exact refusal?_bind fun input _ => refusal?_bind_pure _ _

theorem Grouping.refusal?_resolve (moduleName : String) (g : Grouping Declared) :
    refusal? (g.resolve moduleName) = Spot.complaint? (g.tree moduleName).spots := by
  rw [resolve, refusal?_bind_pure]
  exact Node.refusal?_resolveAll ⟨moduleName, (g.tree moduleName).base, some _⟩ [] g.children

theorem Module.refusal?_resolve (m : Module Declared) :
    refusal? m.resolve = Spot.complaint? m.spots := by
  have hgroupings : refusal? (m.groupings.mapM (Grouping.resolve m.name)) =
      Spot.complaint? (m.groupings.flatMap fun g => (g.tree m.name).spots) :=
    Spot.complaint?_mapM fun g _ => g.refusal?_resolve m.name
  have hrpcs : refusal? (m.rpcs.mapM (Rpc.resolve m.name)) =
      Spot.complaint? (m.rpcs.flatMap fun r => (r.trees m.name).flatMap Tree.spots) :=
    Spot.complaint?_mapM fun r _ => r.refusal?_resolve m.name
  have hchildren : refusal? (Node.resolveAll (Scope.ofModule m.name) m.children) =
      Spot.complaint? (Tree.spots ⟨⟨[m.name]⟩, m.children⟩) :=
    Node.refusal?_resolveAll ⟨m.name, ⟨[m.name]⟩, none⟩ [] m.children
  rw [spots_eq, Spot.complaint?_append, Spot.complaint?_append, ← hchildren, ← hgroupings, ← hrpcs,
    resolve]
  refine refusal?_bind fun children _ => ?_
  exact refusal?_bind fun groupings _ => refusal?_bind_pure _ _

theorem Module.forall_spots {m : Module Declared} {P : Declared → Prop} :
    (∀ s ∈ m.spots, P s.head) ↔ ∀ t ∈ m.trees, ∀ n ∈ Node.preorderAll t.nodes, P n.head := by
  have hspots : ∀ t : Tree,
      (∀ s ∈ t.spots, P s.head) ↔ ∀ n ∈ Node.preorderAll t.nodes, P n.head := by
    intro t
    have hheads : t.spots.map Spot.head = (Node.preorderAll t.nodes).map Node.head :=
      Node.map_head_spotsAll t.nodes
    rw [← List.forall_mem_map (f := Spot.head), hheads, List.forall_mem_map]
  simp only [spots, List.forall_mem_flatMap, hspots]

namespace Context

/-- The first name that is seen already, whether before the list or in it. -/
theorem duplicate?_eq_some {seen names : List String} {name : String} :
    duplicate? seen names = some name ↔ ∃ before after, names = before ++ name :: after ∧
      before.Nodup ∧ (∀ n ∈ before, n ∉ seen) ∧ (name ∈ seen ∨ name ∈ before) := by
  induction names generalizing seen with
  | nil => simp [duplicate?]
  | cons n names ih =>
    rw [duplicate?]
    split
    · next hn =>
      constructor
      · rintro ⟨⟩
        exact ⟨[], names, rfl, .nil, List.forall_mem_nil _, .inl hn⟩
      · rintro ⟨before, after, hsplit, -, hfresh, -⟩
        cases before with
        | nil => rw [(List.cons.inj hsplit).1]
        | cons k before =>
          obtain rfl := (List.cons.inj hsplit).1
          exact absurd hn (hfresh n (List.mem_cons_self ..))
    · next hn =>
      rw [ih]
      constructor
      · rintro ⟨before, after, rfl, hnodup, hfresh, hname⟩
        refine ⟨n :: before, after, rfl, ?_, ?_, ?_⟩
        · exact hnodup.cons fun h => hfresh n h (List.mem_cons_self ..)
        · refine List.forall_mem_cons.2 ⟨hn, fun k hk hseen => ?_⟩
          exact hfresh k hk (List.mem_cons_of_mem _ hseen)
        · simp only [List.mem_cons] at hname ⊢
          tauto
      · rintro ⟨before, after, hsplit, hnodup, hfresh, hname⟩
        cases before with
        | nil =>
          obtain rfl := (List.cons.inj hsplit).1
          exact absurd (hname.resolve_right List.not_mem_nil) hn
        | cons k before =>
          obtain ⟨rfl, rfl⟩ := List.cons.inj hsplit
          rw [List.nodup_cons] at hnodup
          refine ⟨before, after, rfl, hnodup.2, fun k hk => ?_, ?_⟩
          · rw [List.mem_cons, not_or]
            exact ⟨ne_of_mem_of_not_mem hk hnodup.1, hfresh k (List.mem_cons_of_mem _ hk)⟩
          · simp only [List.mem_cons] at hname ⊢
            tauto

theorem duplicate?_eq_none {seen names : List String} :
    duplicate? seen names = none ↔ names.Nodup ∧ ∀ n ∈ names, n ∉ seen := by
  induction names generalizing seen with
  | nil => simp [duplicate?]
  | cons n names ih =>
    rw [duplicate?, List.nodup_cons, List.forall_mem_cons]
    split
    · next hn => simp [hn]
    · next hn =>
      rw [ih]
      simp only [List.mem_cons, not_or]
      constructor
      · rintro ⟨hnodup, hseen⟩
        exact ⟨⟨fun h => (hseen n h).1 rfl, hnodup⟩, hn, fun k hk => (hseen k hk).2⟩
      · rintro ⟨⟨hnot, hnodup⟩, -, hseen⟩
        exact ⟨hnodup, fun k hk => ⟨ne_of_mem_of_not_mem hk hnot, hseen k hk⟩⟩

theorem refusal?_resolve (ms : List (Module Declared)) : refusal? (resolve ms) =
    ((duplicate? [] (ms.map Module.name)).map SchemaError.duplicateModule).or
      (Spot.complaint? (ms.flatMap Module.spots)) := by
  unfold resolve
  cases duplicate? [] (ms.map Module.name) with
  | some name => rfl
  | none =>
    rw [refusal?_bind_pure, Spot.complaint?_mapM fun m _ => m.refusal?_resolve]
    rfl

variable {ms : List (Module Declared)}

theorem resolve_eq_duplicateModule {name : String} :
    resolve ms = .error (.duplicateModule name) ↔
      duplicate? [] (ms.map Module.name) = some name := by
  rw [← refusal?_eq_some, refusal?_resolve]
  cases duplicate? [] (ms.map Module.name) with
  | some n => simp
  | none => simp [Spot.complaint?_eq_some]

theorem resolve_eq_unnamedNode {parent : SchemaPath} :
    resolve ms = .error (.unnamedNode parent) ↔ (ms.map Module.name).Nodup ∧
      Spot.complaint? (ms.flatMap Module.spots) = some (.unnamedNode parent) := by
  have hnodup : (ms.map Module.name).Nodup ↔ duplicate? [] (ms.map Module.name) = none := by
    simp [duplicate?_eq_none]
  rw [← refusal?_eq_some, refusal?_resolve, hnodup]
  cases duplicate? [] (ms.map Module.name) <;> simp

theorem exists_resolve_eq_ok : (∃ c, resolve ms = .ok c) ↔ (ms.map Module.name).Nodup ∧
    ∀ s ∈ ms.flatMap Module.spots, s.head.name ≠ "" := by
  rw [← refusal?_eq_none, refusal?_resolve, Option.or_eq_none_iff, Option.map_eq_none_iff,
    duplicate?_eq_none, Spot.complaint?_eq_none]
  simp

/-- A list of modules is refused for a name that stands twice, and first of all for the first module
that has the name of an earlier one. Failing that, it is refused for a node without a name, and the
first one in the order of the trees is reported, by the path of the level where it stands. No other
list is refused. -/
theorem resolve_refuses (ms : List (Module Declared)) :
    (∀ name, resolve ms = .error (.duplicateModule name) ↔
      ∃ before m after, ms = before ++ m :: after ∧ (before.map Module.name).Nodup ∧
        m.name ∈ before.map Module.name ∧ m.name = name) ∧
    (∀ parent, resolve ms = .error (.unnamedNode parent) ↔ (ms.map Module.name).Nodup ∧
      ∃ before s after, ms.flatMap Module.spots = before ++ s :: after ∧
        (∀ t ∈ before, t.head.name ≠ "") ∧ s.head.name = "" ∧ s.level = parent) ∧
    ((∃ c, resolve ms = .ok c) ↔ (ms.map Module.name).Nodup ∧
      ∀ m ∈ ms, ∀ t ∈ m.trees, ∀ n ∈ Node.preorderAll t.nodes, n.head.name ≠ "") := by
  refine ⟨fun name => ?_, fun parent => ?_, ?_⟩
  · rw [resolve_eq_duplicateModule, duplicate?_eq_some]
    constructor
    · rintro ⟨names, rest, hsplit, hnodup, -, hname⟩
      obtain ⟨before, _, rfl, rfl, hrest⟩ := List.map_eq_append_iff.1 hsplit
      obtain ⟨m, after, rfl, rfl, rfl⟩ := List.map_eq_cons_iff.1 hrest
      exact ⟨before, m, after, rfl, hnodup, hname.resolve_left List.not_mem_nil, rfl⟩
    · rintro ⟨before, m, after, rfl, hnodup, hname, rfl⟩
      exact ⟨before.map Module.name, after.map Module.name, by simp, hnodup, by simp, .inr hname⟩
  · rw [resolve_eq_unnamedNode, Spot.complaint?_eq_some]
    simp only [SchemaError.unnamedNode.injEq]
  · rw [exists_resolve_eq_ok, List.forall_mem_flatMap]
    simp only [Module.forall_spots (P := fun d => d.name ≠ "")]

/-- A choice has no part in the path that is reported. -/
example :
    let named (name : String) : Declared := ⟨name, none, none, none, none⟩
    let nameless : Node Declared := .leaf (named "") .string false none
    resolve [{ name := "net", xmlNamespace := none, abbreviation := none, revision := none
               description := none
               children := [.inner (named "port") (.list []) []
                 [.choice (named "speed") [("fixed", [nameless])]]]
               rpcs := []
               groupings := [] }] = .error (.unnamedNode ⟨["net", "port"]⟩) := rfl

end Context

end YangApi
