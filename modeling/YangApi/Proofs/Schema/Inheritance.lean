import YangApi.Proofs.Schema.Lineage
import YangApi.Proofs.Schema.Placed

/-! Resolution by what stands around a node. Owner and configuration flag come from the nearest node
that has one of its own, paths from the containers and lists, origins from the innermost grouping
mark; and resolving a list of modules gives every node in its place exactly that. -/

namespace YangApi

section placing

variable {α β : Type} (f : Lineage α → α → β)

mutual

def Node.mapPlaced (around : Lineage α) : Node α → Node β
  | .inner h shape uses cs =>
    .inner (f around h) shape uses (Node.mapPlacedAll (⟨h, some shape⟩ :: around) cs)
  | .choice h ks => .choice (f around h) (Node.mapPlacedCases (⟨h, none⟩ :: around) ks)
  | .leaf h t m d => .leaf (f around h) t m d
  | .leafList h t => .leafList (f around h) t
  | .anyxml h => .anyxml (f around h)

def Node.mapPlacedAll (around : Lineage α) : List (Node α) → List (Node β)
  | [] => []
  | n :: ns => n.mapPlaced around :: Node.mapPlacedAll around ns

def Node.mapPlacedCases (around : Lineage α) : Cases α → Cases β
  | [] => []
  | (name, ns) :: ks => (name, Node.mapPlacedAll around ns) :: Node.mapPlacedCases around ks

end

theorem Node.mapPlacedCases_eq (around : Lineage α) (ks : Cases α) :
    mapPlacedCases f around ks = ks.map fun k => (k.1, mapPlacedAll f around k.2) := by
  induction ks with
  | nil => rfl
  | cons k ks ih => rw [mapPlacedCases, ih, List.map_cons]

end placing

/-- What a tree gives to the nodes it holds, be it the data of a module, the content of a grouping
or that of a procedure's side. -/
structure Ground where
  owner : String
  path : SchemaPath
  origin : Option SchemaPath

def SchemaPath.descend (p : SchemaPath) (names : List String) : SchemaPath := ⟨p.names ++ names⟩

def Enclosing.unmarked (e : Enclosing Declared) : Bool := e.head.grouping.isNone

namespace Lineage

def owner (g : Ground) (l : Lineage Declared) : String :=
  (l.findSome? fun e => e.head.owner).getD g.owner

/-- The configuration flag that the nearest node sets. -/
def config (l : Lineage Declared) : Bool := (l.findSome? fun e => e.head.config).getD true

def levelNames (l : Lineage Declared) : List String := l.levels.map fun e => e.1.name

def path (g : Ground) (l : Lineage Declared) : SchemaPath := g.path.descend l.levelNames

/-- The path inside the grouping that the innermost mark names, read by the owner of the marked
node; without a mark, the path inside the grouping that the tree belongs to. -/
def origin (g : Ground) (l : Lineage Declared) : Option SchemaPath :=
  let inner := l.takeWhile Enclosing.unmarked
  match l.dropWhile Enclosing.unmarked with
  | [] => g.origin.map (·.descend (levelNames inner))
  | marked :: outer =>
    marked.head.grouping.map fun mark =>
      (GroupingRef.read mark (owner g (marked :: outer))).path.descend
        (levelNames (inner ++ [marked]))

theorem levelNames_inner (h : Declared) (shape : Shape) (l : Lineage Declared) :
    levelNames (⟨h, some shape⟩ :: l) = levelNames l ++ [h.name] := by
  simp [levelNames]

theorem levelNames_choice (h : Declared) (l : Lineage Declared) :
    levelNames (⟨h, none⟩ :: l) = levelNames l := by
  simp [levelNames]

theorem origin_marked (g : Ground) {e : Enclosing Declared} {mark : String}
    (h : e.head.grouping = some mark) (l : Lineage Declared) :
    origin g (e :: l) =
      some ((GroupingRef.read mark (owner g (e :: l))).path.descend (levelNames [e])) := by
  simp [origin, Enclosing.unmarked, h]

theorem origin_inner (g : Ground) {h : Declared} (hnone : h.grouping = none) (shape : Shape)
    (l : Lineage Declared) :
    origin g (⟨h, some shape⟩ :: l) = (origin g l).map (·.child h.name) := by
  have hunmarked : Enclosing.unmarked ⟨h, some shape⟩ := by simp [Enclosing.unmarked, hnone]
  simp only [origin, List.takeWhile_cons, List.dropWhile_cons, hunmarked, if_true]
  cases l.dropWhile Enclosing.unmarked with
  | nil => simp [levelNames_inner, SchemaPath.descend, SchemaPath.child, Function.comp_def]
  | cons marked outer =>
    simp [levelNames_inner, SchemaPath.descend, SchemaPath.child, Function.comp_def]

theorem origin_choice (g : Ground) {h : Declared} (hnone : h.grouping = none)
    (l : Lineage Declared) : origin g (⟨h, none⟩ :: l) = origin g l := by
  have hunmarked : Enclosing.unmarked ⟨h, none⟩ := by simp [Enclosing.unmarked, hnone]
  simp only [origin, List.takeWhile_cons, List.dropWhile_cons, hunmarked, if_true]
  cases l.dropWhile Enclosing.unmarked with
  | nil => simp [levelNames_choice]
  | cons marked outer => simp [levelNames_choice]

end Lineage

/-- The head of a node that has `l` around it in a tree on the ground `g`. -/
def Declared.inPlace (g : Ground) (l : Lineage Declared) (d : Declared) : Resolved :=
  let owner := (d.owner <|> l.findSome? fun e => e.head.owner).getD g.owner
  { name := d.name
    owner
    config := (d.config <|> l.findSome? fun e => e.head.config).getD true
    description := d.description
    grouping := d.grouping
    path := (l.path g).child d.name
    origin :=
      match d.grouping with
      | some mark => some ((GroupingRef.read mark owner).path.child d.name)
      | none => (l.origin g).map (·.child d.name) }

/-- A side is named for its direction unless it has a name, and always is configuration. -/
def RpcSide.inPlace (moduleName : String) (r : Rpc Declared) (direction : Direction)
    (s : RpcSide Declared) : RpcSide Resolved :=
  let name := if s.head.name = "" then direction.name else s.head.name
  let g : Ground :=
    { owner := (s.head.owner <|> r.owner).getD moduleName
      path := ⟨[moduleName, r.name, name]⟩
      origin := none }
  { head :=
      { name
        owner := g.owner
        config := true
        description := s.head.description
        grouping := s.head.grouping
        path := g.path
        origin := none }
    children := Node.mapPlacedAll (Declared.inPlace g) [] s.children
    uses := s.uses
    presence := s.presence }

def Rpc.inPlace (moduleName : String) (r : Rpc Declared) : Rpc Resolved :=
  { name := r.name
    owner := some (r.owner.getD moduleName)
    description := r.description
    input := r.input.map (RpcSide.inPlace moduleName r .input)
    output := r.output.map (RpcSide.inPlace moduleName r .output) }

def Grouping.inPlace (moduleName : String) (g : Grouping Declared) : Grouping Resolved :=
  let path := (GroupingRef.read g.name moduleName).path
  { g with
    children := Node.mapPlacedAll (Declared.inPlace ⟨moduleName, path, some path⟩) [] g.children }

def Module.inPlace (m : Module Declared) : Module Resolved :=
  { m with
    children := Node.mapPlacedAll (Declared.inPlace ⟨m.name, ⟨[m.name]⟩, none⟩) [] m.children
    rpcs := m.rpcs.map (Rpc.inPlace m.name)
    groupings := m.groupings.map (Grouping.inPlace m.name) }

/-- The level that resolution has reached inside `l`. -/
def Ground.scope (g : Ground) : Lineage Declared → Scope
  | [] => ⟨g.owner, true, g.path, g.origin⟩
  | e :: l =>
    let s := g.scope l
    let r := s.resolve e.head
    match e.shape? with
    | some _ => r.scope
    | none => r.choiceScope s

namespace Ground

variable (g : Ground)

theorem scope_inner (h : Declared) (shape : Shape) (l : Lineage Declared) :
    g.scope (⟨h, some shape⟩ :: l) = ((g.scope l).resolve h).scope := rfl

theorem scope_choice (h : Declared) (l : Lineage Declared) :
    g.scope (⟨h, none⟩ :: l) = ((g.scope l).resolve h).choiceScope (g.scope l) := rfl

theorem owner_scope (l : Lineage Declared) : (g.scope l).owner = l.owner g := by
  induction l with
  | nil => rfl
  | cons e l ih =>
    have hstep : (g.scope (e :: l)).owner = e.head.owner.getD (g.scope l).owner := by
      obtain ⟨h, _ | shape⟩ := e <;> rfl
    rw [hstep, ih, Lineage.owner, Lineage.owner, List.findSome?_cons]
    cases e.head.owner <;> rfl

theorem config_scope (l : Lineage Declared) : (g.scope l).config = l.config := by
  induction l with
  | nil => rfl
  | cons e l ih =>
    have hstep : (g.scope (e :: l)).config = e.head.config.getD (g.scope l).config := by
      obtain ⟨h, _ | shape⟩ := e <;> rfl
    rw [hstep, ih, Lineage.config, Lineage.config, List.findSome?_cons]
    cases e.head.config <;> rfl

theorem path_scope (l : Lineage Declared) : (g.scope l).path = l.path g := by
  induction l with
  | nil => simp [scope, Lineage.path, Lineage.levelNames, SchemaPath.descend]
  | cons e l ih =>
    obtain ⟨h, _ | shape⟩ := e
    · rw [scope_choice, Resolved.choiceScope, ih]
      simp [Lineage.path, Lineage.levelNames]
    · rw [scope_inner, Resolved.scope, Scope.resolve, ih]
      simp [Lineage.path, Lineage.levelNames, SchemaPath.child, SchemaPath.descend]

/-- A choice puts its name on its own origin only: it is gone again at the level inside. -/
theorem origin_scope (l : Lineage Declared) : (g.scope l).origin = l.origin g := by
  induction l with
  | nil =>
    have hroot : g.origin.map (·.descend []) = g.origin := by
      cases g.origin <;> simp [SchemaPath.descend]
    exact hroot.symm
  | cons e l ih =>
    obtain ⟨h, shape?⟩ := e
    cases hmark : h.grouping with
    | some mark =>
      rw [Lineage.origin_marked g hmark, ← owner_scope]
      cases shape? with
      | some shape => simp [scope_inner, Resolved.scope, Scope.resolve, hmark,
          Lineage.levelNames, SchemaPath.child, SchemaPath.descend]
      | none => simp [scope_choice, Resolved.choiceScope, Scope.resolve, hmark,
          Lineage.levelNames, SchemaPath.descend, SchemaPath.parent_child]
    | none =>
      cases shape? with
      | some shape =>
        rw [Lineage.origin_inner g hmark, ← ih]
        simp [scope_inner, Resolved.scope, Scope.resolve, hmark]
      | none =>
        rw [Lineage.origin_choice g hmark, ← ih]
        simp [scope_choice, Resolved.choiceScope, Scope.resolve, hmark, Function.comp_def,
          SchemaPath.parent_child]

theorem resolve_scope (l : Lineage Declared) (d : Declared) :
    (g.scope l).resolve d = d.inPlace g l := by
  have hscope : g.scope l = ⟨l.owner g, l.config, l.path g, l.origin g⟩ := by
    rw [← owner_scope, ← config_scope, ← path_scope, ← origin_scope]
  rw [hscope]
  -- a word of its own wins on both sides, and without one both sides look around
  obtain ⟨name, owner, config, description, grouping⟩ := d
  cases owner <;> cases config <;> cases grouping <;> rfl

theorem resolveHead_eq_ok {l : Lineage Declared} {d : Declared} {r : Resolved}
    (h : (g.scope l).resolveHead d = .ok r) : d.inPlace g l = r := by
  rw [← Scope.resolveHead_eq_ok h, resolve_scope]

end Ground

section run

variable {α β ε : Type}

theorem eq_map_of_mapM {f : α → Except ε β} {value : α → β} {l : List α} {rs : List β}
    (h : l.mapM f = .ok rs) (hvalue : ∀ a ∈ l, ∀ b, f a = .ok b → b = value a) :
    rs = l.map value := by
  induction l generalizing rs with
  | nil =>
    cases h
    rfl
  | cons a l ih =>
    rw [List.mapM_cons] at h
    obtain ⟨b, hb, h⟩ := bind_eq_ok.1 h
    obtain ⟨bs, hbs, h⟩ := bind_eq_ok.1 h
    obtain rfl := pure_eq_ok.1 h
    rw [List.map_cons, hvalue a (List.mem_cons_self ..) b hb,
      ih hbs fun a ha => hvalue a (List.mem_cons_of_mem _ ha)]

end run

theorem Node.resolveCases_eq (s : Scope) (ks : Cases Declared) :
    resolveCases s ks = ks.mapM fun k => do return (k.1, ← resolveAll s k.2) := by
  induction ks with
  | nil => rfl
  | cons k ks ih =>
    rw [List.mapM_cons, ← ih, resolveCases]
    cases resolveAll s k.2 <;> rfl

/-- The induction is on the levels of the tree; `l` grows by the node that is gone into. -/
theorem Node.eq_mapPlacedAll_of_resolveAll {g : Ground} {l : Lineage Declared}
    {ns : List (Node Declared)} {rs : List (Node Resolved)}
    (h : resolveAll (g.scope l) ns = .ok rs) : rs = mapPlacedAll (Declared.inPlace g) l ns := by
  induction ns using Node.levels generalizing l rs with
  | nil =>
    cases h
    rfl
  | cons n ns ihn ihns =>
    rw [resolveAll] at h
    obtain ⟨r, hr, h⟩ := bind_eq_ok.1 h
    obtain ⟨rest, hrest, h⟩ := bind_eq_ok.1 h
    obtain rfl := pure_eq_ok.1 h
    have hn : [r] = mapPlacedAll (Declared.inPlace g) l [n] :=
      ihn (by simp [resolveAll, hr, bind, Except.bind, pure, Except.pure])
    rw [ihns hrest, mapPlacedAll, (List.cons.inj hn).1]
  | inner d shape uses cs ih =>
    simp only [resolveAll, resolve, bind_eq_ok, pure_eq_ok, Except.ok.injEq] at h
    obtain ⟨_, ⟨r, hr, cs', hcs, rfl⟩, _, rfl, rfl⟩ := h
    obtain rfl := g.resolveHead_eq_ok hr
    rw [← g.resolve_scope, ← g.scope_inner] at hcs
    rw [ih hcs]
    rfl
  | choice d ks ih =>
    simp only [resolveAll, resolve, bind_eq_ok, pure_eq_ok, Except.ok.injEq] at h
    obtain ⟨_, ⟨r, hr, ks', hks, rfl⟩, _, rfl, rfl⟩ := h
    obtain rfl := g.resolveHead_eq_ok hr
    rw [← g.resolve_scope, ← g.scope_choice, resolveCases_eq] at hks
    have hcases : ks' = ks.map fun k =>
        (k.1, mapPlacedAll (Declared.inPlace g) (⟨d, none⟩ :: l) k.2) := by
      refine eq_map_of_mapM hks fun k hk k' hk' => ?_
      obtain ⟨cs, hcs, hk'⟩ := bind_eq_ok.1 hk'
      rw [← pure_eq_ok.1 hk', ih k hk hcs]
    rw [hcases, mapPlacedAll, mapPlaced, mapPlacedCases_eq]
    rfl
  | leaf | leafList | anyxml =>
    simp only [resolveAll, resolve, bind_eq_ok, pure_eq_ok, Except.ok.injEq] at h
    obtain ⟨_, ⟨r, hr, rfl⟩, _, rfl, rfl⟩ := h
    obtain rfl := g.resolveHead_eq_ok hr
    rfl

theorem RpcSide.eq_inPlace_of_resolve? {moduleName : String} {r : Rpc Declared}
    {direction : Direction} {x : Option (RpcSide Declared)} {y : Option (RpcSide Resolved)}
    (h : resolve? direction (r.owner.getD moduleName) ⟨[moduleName, r.name]⟩ x = .ok y) :
    y = x.map (inPlace moduleName r direction) := by
  cases x with
  | none =>
    cases h
    rfl
  | some s =>
    simp only [resolve?, resolve, bind_eq_ok, pure_eq_ok] at h
    obtain ⟨_, ⟨cs, hcs, rfl⟩, rfl⟩ := h
    have howner : s.head.owner.getD (r.owner.getD moduleName) =
        (s.head.owner <|> r.owner).getD moduleName := by
      cases s.head.owner <;> rfl
    -- the level below a side is the ground that its content stands on
    have hcs := Node.eq_mapPlacedAll_of_resolveAll (l := []) (g := ⟨_, _, none⟩) hcs
    rw [hcs]
    simp only [resolveHead, howner]
    rfl

theorem Rpc.eq_inPlace_of_resolve {moduleName : String} {r : Rpc Declared} {r' : Rpc Resolved}
    (h : r.resolve moduleName = .ok r') : r' = r.inPlace moduleName := by
  simp only [resolve, bind_eq_ok, pure_eq_ok] at h
  obtain ⟨input, hinput, output, houtput, rfl⟩ := h
  rw [RpcSide.eq_inPlace_of_resolve? hinput, RpcSide.eq_inPlace_of_resolve? houtput]
  rfl

theorem Grouping.eq_inPlace_of_resolve {moduleName : String} {g : Grouping Declared}
    {g' : Grouping Resolved} (h : g.resolve moduleName = .ok g') : g' = g.inPlace moduleName := by
  simp only [resolve, bind_eq_ok, pure_eq_ok] at h
  obtain ⟨cs, hcs, rfl⟩ := h
  rw [Node.eq_mapPlacedAll_of_resolveAll (l := []) (g := ⟨_, _, some _⟩) hcs]
  rfl

theorem Module.eq_inPlace_of_resolve {m : Module Declared} {m' : Module Resolved}
    (h : m.resolve = .ok m') : m' = m.inPlace := by
  simp only [resolve, bind_eq_ok, pure_eq_ok] at h
  obtain ⟨children, hchildren, groupings, hgroupings, rpcs, hrpcs, rfl⟩ := h
  rw [Node.eq_mapPlacedAll_of_resolveAll (l := []) (g := ⟨_, _, none⟩) hchildren,
    eq_map_of_mapM hgroupings fun g _ _ hg => Grouping.eq_inPlace_of_resolve hg,
    eq_map_of_mapM hrpcs fun r _ _ hr => Rpc.eq_inPlace_of_resolve hr]
  rfl

namespace Context

/-- Resolution changes nothing but the heads of nodes and of procedures, and gives each node exactly
what its place says. -/
theorem modules_of_resolve {ms : List (Module Declared)} {c : Context} (h : resolve ms = .ok c) :
    c.modules = ms.map Module.inPlace := by
  unfold resolve at h
  split at h
  · cases h
  · obtain ⟨modules, hmodules, h⟩ := bind_eq_ok.1 h
    obtain rfl := pure_eq_ok.1 h
    exact eq_map_of_mapM hmodules fun m _ _ hm => Module.eq_inPlace_of_resolve hm

theorem modules_of_resolve_shop :
    ∃ c, resolve shop = .ok c ∧ c.modules = shop.map Module.inPlace := by
  obtain ⟨c, h⟩ := exists_resolve_shop
  exact ⟨c, h, modules_of_resolve h⟩

/-- A choice that came from a grouping hands on its owner and its origin, but not its name. -/
example :
    Declared.inPlace ⟨"shop", ⟨["shop"]⟩, none⟩
        [⟨⟨"payment", some "bank", none, none, some "money:transfer"⟩, none⟩,
          ⟨⟨"order", none, some false, none, none⟩, some (.list ["id"])⟩]
        ⟨"amount", none, none, none, none⟩ =
      { name := "amount"
        owner := "bank"
        config := false
        description := none
        grouping := none
        path := ⟨["shop", "order", "amount"]⟩
        origin := some ⟨["money", "grouping", "transfer", "amount"]⟩ } := by decide

end Context

end YangApi
