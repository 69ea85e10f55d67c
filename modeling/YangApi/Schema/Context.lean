import YangApi.Schema.Module

/-! Resolution of a list of modules. Owner, configuration flag and path go down the tree; choices
and cases are transparent: their nodes live at the level around the choice. -/

namespace YangApi

inductive SchemaError where
  | duplicateModule (name : String)
  | unnamedNode (parent : SchemaPath)
  deriving DecidableEq

def SchemaError.message : SchemaError → String
  | .duplicateModule name => "Duplicate module: " ++ name
  | .unnamedNode parent => "Unnamed schema node under '" ++ parent.text ++ "'"

structure Scope where
  owner : String
  config : Bool
  path : SchemaPath
  origin : Option SchemaPath

/-- The resolved head of a node at a level: its own words win over inherited ones, and a grouping
mark starts a new origin. -/
def Scope.resolve (s : Scope) (d : Declared) : Resolved :=
  let owner := d.owner.getD s.owner
  { name := d.name
    owner := owner
    config := d.config.getD s.config
    description := d.description
    grouping := d.grouping
    path := s.path.child d.name
    origin :=
      match d.grouping with
      | some g => some ((GroupingRef.read g owner).path.child d.name)
      | none => s.origin.map (·.child d.name) }

def Resolved.scope (r : Resolved) : Scope := ⟨r.owner, r.config, r.path, r.origin⟩

/-- The level inside a choice at level `s`: paths go on as if the choice were not there. -/
def Resolved.choiceScope (r : Resolved) (s : Scope) : Scope :=
  ⟨r.owner, r.config, s.path, r.origin.map SchemaPath.parent⟩

def Scope.resolveHead (s : Scope) (d : Declared) : Except SchemaError Resolved :=
  if d.name = "" then .error (.unnamedNode s.path) else .ok (s.resolve d)

mutual

def Node.resolve (s : Scope) : Node Declared → Except SchemaError (Node Resolved)
  | .inner d shape uses cs => do
    let r ← s.resolveHead d
    return .inner r shape uses (← Node.resolveAll r.scope cs)
  | .choice d ks => do
    let r ← s.resolveHead d
    return .choice r (← Node.resolveCases (r.choiceScope s) ks)
  | .leaf d t m v => do return .leaf (← s.resolveHead d) t m v
  | .leafList d t => do return .leafList (← s.resolveHead d) t
  | .anyxml d => do return .anyxml (← s.resolveHead d)

def Node.resolveAll (s : Scope) : List (Node Declared) → Except SchemaError (List (Node Resolved))
  | [] => .ok []
  | n :: ns => do
    let r ← n.resolve s
    return r :: (← Node.resolveAll s ns)

def Node.resolveCases (s : Scope) : Cases Declared → Except SchemaError (Cases Resolved)
  | [] => .ok []
  | (name, ns) :: ks => do
    let rs ← Node.resolveAll s ns
    return (name, rs) :: (← Node.resolveCases s ks)

end

def Scope.ofModule (name : String) : Scope := ⟨name, true, ⟨[name]⟩, none⟩

def Scope.ofGrouping (moduleName name : String) : Scope :=
  let path := (GroupingRef.read name moduleName).path
  ⟨moduleName, true, path, some path⟩

def Grouping.resolve (moduleName : String) (g : Grouping Declared) :
    Except SchemaError (Grouping Resolved) := do
  return ⟨g.name, g.description, ← Node.resolveAll (Scope.ofGrouping moduleName g.name) g.children,
    g.uses⟩

/-- The head of a procedure's side. It is named for its direction unless it has a name, and always
counts as configuration. -/
def RpcSide.resolveHead (direction : Direction) (owner : String) (rpcPath : SchemaPath)
    (d : Declared) : Resolved :=
  let name := if d.name = "" then direction.name else d.name
  { name := name
    owner := d.owner.getD owner
    config := true
    description := d.description
    grouping := d.grouping
    path := rpcPath.child name
    origin := none }

def RpcSide.resolve (direction : Direction) (owner : String) (rpcPath : SchemaPath)
    (s : RpcSide Declared) : Except SchemaError (RpcSide Resolved) := do
  let head := RpcSide.resolveHead direction owner rpcPath s.head
  return ⟨head, ← Node.resolveAll head.scope s.children, s.uses, s.presence⟩

def RpcSide.resolve? (direction : Direction) (owner : String) (rpcPath : SchemaPath) :
    Option (RpcSide Declared) → Except SchemaError (Option (RpcSide Resolved))
  | none => .ok none
  | some s => do return some (← s.resolve direction owner rpcPath)

def Rpc.resolve (moduleName : String) (r : Rpc Declared) : Except SchemaError (Rpc Resolved) := do
  let owner := r.owner.getD moduleName
  let path : SchemaPath := ⟨[moduleName, r.name]⟩
  let input ← RpcSide.resolve? .input owner path r.input
  let output ← RpcSide.resolve? .output owner path r.output
  return ⟨r.name, some owner, r.description, input, output⟩

/-- Data nodes first, then groupings, then procedures. -/
def Module.resolve (m : Module Declared) : Except SchemaError (Module Resolved) := do
  let children ← Node.resolveAll (Scope.ofModule m.name) m.children
  let groupings ← m.groupings.mapM (Grouping.resolve m.name)
  let rpcs ← m.rpcs.mapM (Rpc.resolve m.name)
  return { m with children, groupings, rpcs }

structure Context where
  modules : List (Module Resolved)

namespace Context

def duplicate? : List String → List String → Option String
  | _, [] => none
  | seen, n :: ns => if n ∈ seen then some n else duplicate? (n :: seen) ns

/-- A repeated module name is reported before any unnamed node. -/
def resolve (ms : List (Module Declared)) : Except SchemaError Context :=
  match duplicate? [] (ms.map Module.name) with
  | some name => .error (.duplicateModule name)
  | none => do return ⟨← ms.mapM Module.resolve⟩

def module? (c : Context) (name : String) : Option (Module Resolved) :=
  c.modules.find? (·.name = name)

def grouping? (c : Context) (reference currentModule : String) : Option (Grouping Resolved) :=
  let g := GroupingRef.read reference currentModule
  (c.module? g.owner).bind (·.grouping? g.name)

def isEmpty (c : Context) : Bool := c.modules.isEmpty

def groupingCount (c : Context) : Nat := (c.modules.flatMap Module.groupings).length

/-- The modules as declarations that leave nothing to inherit. -/
def declared (c : Context) : List (Module Declared) := c.modules.map (Module.map Resolved.declared)

end Context

end YangApi
