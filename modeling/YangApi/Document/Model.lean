import YangApi.Table

/-! Definitions of a Swagger document: references, plain models and compositions. -/

namespace YangApi

structure Scalar where
  type : String
  format : Option String := none
  description : Option String := none
  values : List String := []
  default : Option String := none
  readOnly : Bool := false
  target : Option String := none
  deriving DecidableEq, Inhabited

/-- A property of a plain model. A reference holds the name of a definition. -/
inductive Property where
  | ref (name : String) (description : Option String)
  | array (items : Property) (description : Option String)
  | scalar (s : Scalar)
  deriving DecidableEq

namespace Property

def description : Property → Option String
  | .ref _ d => d
  | .array _ d => d
  | .scalar s => s.description

def withDescription (d : Option String) : Property → Property
  | .ref n _ => .ref n d
  | .array p _ => .array p d
  | .scalar s => .scalar { s with description := d }

/-- The definition that the property, or the innermost item of its arrays, refers to. -/
def refName? : Property → Option String
  | .ref n _ => some n
  | .array p _ => p.refName?
  | .scalar _ => none

end Property

/-- An object with named properties. No table at all and an empty one differ in the output. -/
structure Plain where
  type : String := "object"
  description : Option String := none
  properties : Option (Table Property) := none
  required : List String := []

namespace Plain

def addProperty (m : Plain) (name : String) (p : Property) : Plain :=
  { m with properties := some ((m.properties.getD .empty).insert name p) }

def addRequired (m : Plain) (name : String) : Plain :=
  { m with required := if name ∈ m.required then m.required else m.required ++ [name] }

def isEmpty (m : Plain) : Bool := (m.properties.map Table.isEmpty).getD true

end Plain

/-- A definition, or a part of one. `interfaces` lists the references of a composition on their
own; it is not part of the output. -/
inductive Model where
  | ref (name : String)
  | composed (description : Option String) (allOf : List Model) (interfaces : List String)
  | plain (m : Plain)

namespace Model

def description : Model → Option String
  | .ref _ => none
  | .composed d _ _ => d
  | .plain m => m.description

def refName? : Model → Option String
  | .ref n => some n
  | _ => none

def aliasTarget? : Model → Option String
  | .composed _ [.ref n] _ => some n
  | _ => none

end Model

def referenceTo (name : String) : String := "#/definitions/" ++ name

end YangApi
