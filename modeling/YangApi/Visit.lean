import YangApi.Schema.Context
import YangApi.Segment

/-! The order in which a module is gone through. Data nodes come depth first, a node before those
below it, choices and cases flattened in place; a node of a module that is not selected is left
out with all below it. Procedures follow. -/

namespace YangApi

inductive ElementKind where
  | data
  | rpc
  deriving DecidableEq

def ElementKind.all : List ElementKind := [.data, .rpc]

def ElementKind.name : ElementKind → String
  | .data => "data"
  | .rpc => "rpc"

/-- What happens on the way: a data node gets its paths, and its definition when all below it is
done; a procedure gets its path. -/
inductive Visit where
  | path (node : Interior) (segment : Segment)
  | define (node : Interior)
  | rpc (rpc : Rpc Resolved) (segment : Segment)

def Segment.pushNode (s : Segment) (owner : String) (r : Resolved) (shape : Shape) : Segment :=
  s.push r.name owner (!r.config) shape.keys

mutual

def Node.visits (selected : List String) (owner : String) (s : Segment) :
    Node Resolved → List Visit
  | .inner r shape uses cs =>
    if r.owner ∈ selected then
      let segment := s.pushNode owner r shape
      .path ⟨r, shape, uses, cs⟩ segment ::
        (Node.visitsAll selected owner segment cs ++ [.define ⟨r, shape, uses, cs⟩])
    else []
  | .choice r ks => if r.owner ∈ selected then Node.visitsCases selected owner s ks else []
  | _ => []

def Node.visitsAll (selected : List String) (owner : String) (s : Segment) :
    List (Node Resolved) → List Visit
  | [] => []
  | n :: ns => n.visits selected owner s ++ Node.visitsAll selected owner s ns

def Node.visitsCases (selected : List String) (owner : String) (s : Segment) :
    Cases Resolved → List Visit
  | [] => []
  | (_, ns) :: ks =>
    Node.visitsAll selected owner s ns ++ Node.visitsCases selected owner s ks

end

/-- A procedure stands on a level of its own. -/
def Rpc.visit (moduleName : String) (r : Rpc Resolved) : Visit :=
  .rpc r ((Segment.ofModule moduleName).push r.name (r.ownerIn moduleName) false [])

/-- All visits of a module, data before procedures whatever the order of `elements`. -/
def Module.visits (selected : List String) (elements : List ElementKind) (m : Module Resolved) :
    List Visit :=
  (if .data ∈ elements then Node.visitsAll selected m.name (.ofModule m.name) m.children else []) ++
    (if .rpc ∈ elements then m.rpcs.map (Rpc.visit m.name) else [])

end YangApi
