import YangApi.Schema.Path

/-! The schema tree. A node carries a head: before resolution what its declaration says, after it
everything that is inherited or computed from its place. -/

namespace YangApi

inductive LeafType where
  | string
  | boolean
  | int8
  | int16
  | int32
  | int64
  | uint8
  | uint16
  | uint32
  | uint64
  | decimal64
  | empty
  | binary
  | enumeration (values : List String)
  | leafref (path : String)
  | identityref (base : String)
  | union (types : List LeafType)
  deriving Inhabited

/-- What a declaration says about its node. `grouping` marks a node that was copied from one. -/
structure Declared where
  name : String
  owner : Option String
  config : Option Bool
  description : Option String
  grouping : Option String
  deriving DecidableEq, Inhabited

/-- A node in its place. `origin` is the path inside the grouping that the node comes from. -/
structure Resolved where
  name : String
  owner : String
  config : Bool
  description : Option String
  grouping : Option String
  path : SchemaPath
  origin : Option SchemaPath
  deriving DecidableEq, Inhabited

/-- The path that names the node's definition: where it was written, not where it was copied to. -/
def Resolved.definitionPath (r : Resolved) : SchemaPath := r.origin.getD r.path

def Resolved.declared (r : Resolved) : Declared :=
  ⟨r.name, some r.owner, some r.config, r.description, r.grouping⟩

inductive Shape where
  | container (presence : Bool)
  | list (keys : List String)
  deriving DecidableEq, Inhabited

def Shape.keys : Shape → List String
  | .container _ => []
  | .list ks => ks

def Shape.isList : Shape → Bool
  | .container _ => false
  | .list _ => true

inductive Node (α : Type) where
  | inner (head : α) (shape : Shape) (uses : List String) (children : List (Node α))
  | choice (head : α) (cases : List (String × List (Node α)))
  | leaf (head : α) (type : LeafType) (mandatory : Bool) (default : Option String)
  | leafList (head : α) (type : LeafType)
  | anyxml (head : α)

abbrev Cases (α : Type) := List (String × List (Node α))

def Node.head {α : Type} : Node α → α
  | .inner h .. => h
  | .choice h _ => h
  | .leaf h .. => h
  | .leafList h _ => h
  | .anyxml h => h

structure Interior where
  head : Resolved
  shape : Shape
  uses : List String
  children : List (Node Resolved)

def Node.interior? : Node Resolved → Option Interior
  | .inner h s us cs => some ⟨h, s, us, cs⟩
  | _ => none

mutual

def Node.map {α β : Type} (f : α → β) : Node α → Node β
  | .inner h s us cs => .inner (f h) s us (Node.mapAll f cs)
  | .choice h ks => .choice (f h) (Node.mapCases f ks)
  | .leaf h t m d => .leaf (f h) t m d
  | .leafList h t => .leafList (f h) t
  | .anyxml h => .anyxml (f h)

def Node.mapAll {α β : Type} (f : α → β) : List (Node α) → List (Node β)
  | [] => []
  | n :: ns => n.map f :: Node.mapAll f ns

def Node.mapCases {α β : Type} (f : α → β) : Cases α → Cases β
  | [] => []
  | (name, ns) :: ks => (name, Node.mapAll f ns) :: Node.mapCases f ks

end

mutual

/-- The nodes that stand at a node's own level: itself, or the nodes of a choice's cases. Each
comes with the answer whether it or a choice around it was copied from a grouping. -/
def Node.flatten (inherited : Bool) : Node Resolved → List (Node Resolved × Bool)
  | .choice h ks => Node.flattenCases (inherited || h.grouping.isSome) ks
  | n => [(n, inherited || n.head.grouping.isSome)]

def Node.flattenAll (inherited : Bool) : List (Node Resolved) → List (Node Resolved × Bool)
  | [] => []
  | n :: ns => n.flatten inherited ++ Node.flattenAll inherited ns

def Node.flattenCases (inherited : Bool) : Cases Resolved → List (Node Resolved × Bool)
  | [] => []
  | (_, ns) :: ks => Node.flattenAll inherited ns ++ Node.flattenCases inherited ks

end

mutual

def Node.preorder {α : Type} : Node α → List (Node α)
  | n@(.inner _ _ _ cs) => n :: Node.preorderAll cs
  | n@(.choice _ ks) => n :: Node.preorderCases ks
  | n => [n]

def Node.preorderAll {α : Type} : List (Node α) → List (Node α)
  | [] => []
  | n :: ns => n.preorder ++ Node.preorderAll ns

def Node.preorderCases {α : Type} : Cases α → List (Node α)
  | [] => []
  | (_, ns) :: ks => Node.preorderAll ns ++ Node.preorderCases ks

end

end YangApi
