import YangApi.Definitions.Shared
import YangApi.Definitions.Unpacked

/-! The two ways to make definitions. -/

namespace YangApi

inductive Strategy where
  | shared
  | unpacked
  deriving DecidableEq

namespace Strategy

def all : List Strategy := [.shared, .unpacked]

def name : Strategy → String
  | .shared => "optimizing"
  | .unpacked => "unpacking"

def key : Strategy → Resolved → SchemaPath
  | .shared => Shared.key
  | .unpacked => Unpacked.key

def nameOf (s : Strategy) (d : Draft) (r : Resolved) : Draft × String :=
  d.assignPath (s.key r) r.name

def nameOfSide (s : Strategy) (d : Draft) (r : Rpc Resolved) (direction : Direction) :
    Draft × Option String :=
  match r.side direction with
  | none => (d, none)
  | some side =>
    let (d, name) := s.nameOf d side.head
    (d, some name)

def prime : Strategy → Draft → Module Resolved → Draft
  | .shared => Shared.prime
  | .unpacked => Unpacked.prime

def add (s : Strategy) (c : Context) (d : Draft) (i : Interior) : Draft :=
  match s with
  | .shared => Shared.add c d i
  | .unpacked => Unpacked.add d i

end Strategy

end YangApi
