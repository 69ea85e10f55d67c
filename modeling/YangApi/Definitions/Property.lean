import YangApi.Document.Model
import YangApi.Schema.Node

/-! Properties that stand for schema nodes. -/

namespace YangApi

def LeafType.scalar : LeafType → Scalar
  | .string | .identityref _ | .union _ => { type := "string" }
  | .binary => { type := "string", format := some "binary" }
  | .boolean | .empty => { type := "boolean" }
  | .int8 | .int16 | .int32 | .uint8 | .uint16 => { type := "integer", format := some "int32" }
  | .int64 | .uint32 | .uint64 => { type := "integer", format := some "int64" }
  | .decimal64 => { type := "number", format := some "double" }
  | .enumeration values => { type := "string", values }
  | .leafref path => { type := "string", target := some path }

/-- The node around a property: its module, and its keys if it is a list. -/
structure Parent where
  owner : String
  keys : List String

/-- A child of another module is qualified by it. -/
def Parent.propertyName (p : Parent) (r : Resolved) : String :=
  if r.owner = "" || r.owner = p.owner then r.name else r.owner ++ ":" ++ r.name

/-- The property of a node; `definition` names the definition of a container or list. A choice has
none, and a container or list without a definition has none. -/
def Node.property? (definition : Option String) : Node Resolved → Option Property
  | .leaf r t _ default =>
    some (.scalar { t.scalar with description := r.description, default, readOnly := !r.config })
  | .leafList r t => some (.array (.scalar { t.scalar with readOnly := !r.config }) r.description)
  | .inner r (.container _) _ _ => definition.map fun n => .ref n r.description
  | .inner r (.list _) _ _ => definition.map fun n => .array (.ref n none) r.description
  | .anyxml _ => some (.scalar { type := "object" })
  | .choice .. => none

/-- A leaf is required when it must be given or is a key of its parent. -/
def Parent.requires (p : Parent) : Node Resolved → Bool
  | .leaf r _ mandatory _ => mandatory || r.name ∈ p.keys
  | _ => false

def Plain.addChild (m : Plain) (p : Parent) (n : Node Resolved) (definition : Option String) :
    Plain :=
  match n.property? definition with
  | none => m
  | some property =>
    let name := p.propertyName n.head
    (if p.requires n then m.addRequired name else m).addProperty name property

end YangApi
