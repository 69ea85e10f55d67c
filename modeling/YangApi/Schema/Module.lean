import YangApi.Schema.Node

/-! Modules with their data nodes, groupings and remote procedures. -/

namespace YangApi

/-- One direction of a remote procedure: a container of its own. -/
structure RpcSide (α : Type) where
  head : α
  children : List (Node α)
  uses : List String
  presence : Bool

inductive Direction where
  | input
  | output
  deriving DecidableEq

def Direction.name : Direction → String
  | .input => "input"
  | .output => "output"

def Direction.suffix : Direction → String
  | .input => "Input"
  | .output => "Output"

structure Rpc (α : Type) where
  name : String
  owner : Option String
  description : Option String
  input : Option (RpcSide α)
  output : Option (RpcSide α)

structure Grouping (α : Type) where
  name : String
  description : Option String
  children : List (Node α)
  uses : List String

structure Module (α : Type) where
  name : String
  xmlNamespace : Option String
  abbreviation : Option String
  revision : Option String
  description : Option String
  children : List (Node α)
  rpcs : List (Rpc α)
  groupings : List (Grouping α)

variable {α β : Type}

def RpcSide.map (f : α → β) (s : RpcSide α) : RpcSide β :=
  ⟨f s.head, Node.mapAll f s.children, s.uses, s.presence⟩

def RpcSide.interior (s : RpcSide Resolved) : Interior :=
  ⟨s.head, .container s.presence, s.uses, s.children⟩

def Rpc.ownerName (r : Rpc α) : String := r.owner.getD ""

def Rpc.ownerIn (r : Rpc α) (moduleName : String) : String :=
  if r.ownerName = "" then moduleName else r.ownerName

def Rpc.side (r : Rpc α) : Direction → Option (RpcSide α)
  | .input => r.input
  | .output => r.output

def Rpc.sides (r : Rpc α) : List (RpcSide α) := [r.input, r.output].filterMap id

def Rpc.map (f : α → β) (r : Rpc α) : Rpc β :=
  { r with input := r.input.map (RpcSide.map f), output := r.output.map (RpcSide.map f) }

def Grouping.map (f : α → β) (g : Grouping α) : Grouping β :=
  { g with children := Node.mapAll f g.children }

def Module.map (f : α → β) (m : Module α) : Module β :=
  { m with
    children := Node.mapAll f m.children
    rpcs := m.rpcs.map (Rpc.map f)
    groupings := m.groupings.map (Grouping.map f) }

def Module.grouping? (m : Module α) (name : String) : Option (Grouping α) :=
  m.groupings.find? (·.name = name)

end YangApi
