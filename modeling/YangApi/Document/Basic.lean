import YangApi.Document.Operation

/-! The Swagger 2.0 document, and what is worth telling of it although the run goes on. -/

namespace YangApi

structure Info where
  title : String := ""
  description : Option String := none
  version : String := ""
  deriving DecidableEq

structure Tag where
  name : String
  description : Option String := none
  deriving DecidableEq

/-- A document without definitions and one with an empty table of them differ in the output. -/
structure Document where
  info : Info := {}
  host : Option String := none
  basePath : Option String := none
  consumes : List String := []
  produces : List String := []
  tags : List Tag := []
  paths : Table PathItem := .empty
  definitions : Option (Table Model) := none

namespace Document

def define (d : Document) (name : String) (m : Model) : Document :=
  { d with definitions := some ((d.definitions.getD .empty).insert name m) }

def definition? (d : Document) (name : String) : Option Model :=
  d.definitions.bind (·.get? name)

def hasDefinition (d : Document) (name : String) : Bool := (d.definition? name).isSome

def definitionCount (d : Document) : Nat := (d.definitions.map Table.size).getD 0

def updatePath (d : Document) (path : String) (f : PathItem → PathItem) : Document :=
  { d with paths := d.paths.upsert path fun i => f (i.getD {}) }

def operations (d : Document) : List Operation :=
  d.paths.values.flatMap fun i => i.operations.map Prod.snd

def mapOperations (f : Operation → Operation) (d : Document) : Document :=
  { d with paths := d.paths.map fun _ i => i.map f }

end Document

inductive Warning where
  | noDefinitions
  | noProperties (definition : String)
  | missingGrouping (reference owner : String)
  deriving DecidableEq

namespace Warning

def message : Warning → String
  | .noDefinitions => "Document has no definitions; skipping post-processing"
  | .noProperties _ => "Model has no properties"
  | .missingGrouping .. => "Used grouping not found; reference omitted"

def details : Warning → List (String × String)
  | .noDefinitions => []
  | .noProperties definition => [("definition", definition)]
  | .missingGrouping reference owner => [("grouping", reference), ("module", owner)]

end Warning

end YangApi
