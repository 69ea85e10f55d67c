import YangApi.Datum
import YangApi.Document.Basic

/-! Documents as values, fields in the order of the Swagger 2.0 specification. What is absent or
empty is left out, but paths, responses, descriptions of responses and the parts of a composition
always stand. -/

namespace YangApi

def Table.value {α : Type} (f : α → Value) (t : Table α) : Value :=
  .record (t.entries.map fun e => (e.1, f e.2))

def Scalar.value (s : Scalar) : Value :=
  .record ([("type", .text s.type)] ++ Value.ifSome "format" .text s.format ++
    Value.ifSome "description" .text s.description ++ Value.ifAny "enum" (s.values.map .text) ++
    Value.ifSome "default" .text s.default ++
    (if s.readOnly then [("readOnly", .bool true)] else []) ++ Value.ifSome "x-path" .text s.target)

def Property.value : Property → Value
  | .ref n d => .record ([("$ref", .text (referenceTo n))] ++ Value.ifSome "description" .text d)
  | .array p d =>
    .record ([("type", .text "array")] ++ Value.ifSome "description" .text d ++
      [("items", p.value)])
  | .scalar s => s.value

def Plain.value (m : Plain) : Value :=
  .record ([("type", .text m.type)] ++ Value.ifSome "description" .text m.description ++
    Value.ifSome "properties" (Table.value Property.value) m.properties ++
    Value.ifAny "required" (m.required.map .text))

mutual

def Model.value : Model → Value
  | .ref n => .record [("$ref", .text (referenceTo n))]
  | .composed d parts _ =>
    .record (Value.ifSome "description" .text d ++ [("allOf", .list (Model.values parts))])
  | .plain m => m.value

def Model.values : List Model → List Value
  | [] => []
  | m :: ms => m.value :: Model.values ms

end

def BodyParam.fields (b : BodyParam) : Value.Fields :=
  [("name", .text b.name)] ++ Value.ifSome "description" .text b.description ++
    [("required", .bool b.required), ("schema", b.schema.value)]

def PathParam.fields (p : PathParam) : Value.Fields :=
  [("name", .text p.name)] ++ Value.ifSome "description" .text p.description ++
    [("required", .bool true), ("type", .text "string")]

/-- What a parameter is in comes first. -/
def Parameter.value : Parameter → Value
  | .body b => .record (("in", .text "body") :: b.fields)
  | .path p => .record (("in", .text "path") :: p.fields)

def Response.value (r : Response) : Value :=
  .record ([("description", .text r.description)] ++ Value.ifSome "schema" Property.value r.schema)

def Operation.value (o : Operation) : Value :=
  .record (Value.ifAny "tags" (o.tags.map .text) ++ Value.ifSome "summary" .text o.summary ++
    Value.ifSome "description" .text o.description ++ Value.ifSome "operationId" .text o.id ++
    Value.ifAny "parameters" (o.parameters.map Parameter.value) ++
    [("responses", o.responses.value Response.value)])

def PathItem.value (i : PathItem) : Value :=
  .record (i.operations.map fun e => (e.1.name, e.2.value))

def Info.value (i : Info) : Value :=
  .record ([("title", .text i.title)] ++ Value.ifSome "description" .text i.description ++
    [("version", .text i.version)])

def Tag.value (t : Tag) : Value :=
  .record ([("name", .text t.name)] ++ Value.ifSome "description" .text t.description)

def Document.value (d : Document) : Value :=
  .record ([("swagger", .text "2.0"), ("info", d.info.value)] ++ Value.ifSome "host" .text d.host ++
    Value.ifSome "basePath" .text d.basePath ++ Value.ifAny "consumes" (d.consumes.map .text) ++
    Value.ifAny "produces" (d.produces.map .text) ++ Value.ifAny "tags" (d.tags.map Tag.value) ++
    [("paths", d.paths.value PathItem.value)] ++
    Value.ifSome "definitions" (Table.value Model.value) d.definitions)

end YangApi
