import YangApi.Document.Basic
import YangApi.Naming
import YangApi.Schema.Context

/-! A document in the making, with the names given so far and the warnings met on the way. -/

namespace YangApi

structure Draft where
  names : Registry := .empty
  document : Document := {}
  warnings : List Warning := []

namespace Draft

def assign (d : Draft) (key : SchemaPath) (base : String) (qualifiers : List String) :
    Draft × String :=
  let (names, name) := d.names.assign key base qualifiers
  ({ d with names }, name)

def assignPath (d : Draft) (key : SchemaPath) (name : String) : Draft × String :=
  d.assign key (camelCase name) key.qualifiers

def warn (d : Draft) (w : Warning) : Draft := { d with warnings := d.warnings ++ [w] }

def define (d : Draft) (name : String) (m : Model) : Draft :=
  { d with document := d.document.define name m }

def defineOnce (d : Draft) (name : String) (build : Draft → Draft × Model) : Draft :=
  if d.document.hasDefinition name then d
  else
    let (d, m) := build d
    d.define name m

end Draft

mutual

/-- Names the containers and lists of a tree, a node before its descendants. `key` tells the path
that stands for a node. -/
def Node.prime (key : Resolved → SchemaPath) (d : Draft) : Node Resolved → Draft
  | .inner r _ _ cs => Node.primeAll key (d.assignPath (key r) r.name).1 cs
  | .choice _ ks => Node.primeCases key d ks
  | _ => d

def Node.primeAll (key : Resolved → SchemaPath) (d : Draft) : List (Node Resolved) → Draft
  | [] => d
  | n :: ns => Node.primeAll key (n.prime key d) ns

def Node.primeCases (key : Resolved → SchemaPath) (d : Draft) : Cases Resolved → Draft
  | [] => d
  | (_, ns) :: ks => Node.primeCases key (Node.primeAll key d ns) ks

end

/-- The side of a procedure is named for both, and for what is above the procedure. -/
def RpcSide.prime (key : Resolved → SchemaPath) (rpcName : String) (d : Draft)
    (s : RpcSide Resolved) : Draft :=
  let path := s.head.path
  let d := (d.assign path (camelCase rpcName ++ camelCase s.head.name) path.parent.qualifiers).1
  Node.primeAll key d s.children

def Rpc.prime (key : Resolved → SchemaPath) (d : Draft) (r : Rpc Resolved) : Draft :=
  r.sides.foldl (RpcSide.prime key r.name) d

def Module.primeData (key : Resolved → SchemaPath) (d : Draft) (m : Module Resolved) : Draft :=
  m.rpcs.foldl (Rpc.prime key) (Node.primeAll key d m.children)

end YangApi
