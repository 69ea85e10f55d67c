import YangApi.Document.Model

/-! Operations and the paths that hold them. -/

namespace YangApi

inductive Method where
  | get
  | put
  | post
  | delete
  | patch
  deriving DecidableEq

def Method.all : List Method := [.get, .put, .post, .delete, .patch]

def Method.name : Method → String
  | .get => "get"
  | .put => "put"
  | .post => "post"
  | .delete => "delete"
  | .patch => "patch"

structure BodyParam where
  name : String
  description : Option String
  required : Bool
  schema : Model

/-- A path parameter is a required text. -/
structure PathParam where
  name : String
  description : Option String
  deriving DecidableEq

inductive Parameter where
  | body (p : BodyParam)
  | path (p : PathParam)

structure Response where
  description : String
  schema : Option Property := none

structure Operation where
  tags : List String := []
  summary : Option String := none
  description : Option String := none
  id : Option String := none
  parameters : List Parameter := []
  responses : Table Response := .empty

def Operation.body? (o : Operation) : Option BodyParam :=
  o.parameters.findSome? fun
    | .body p => some p
    | .path _ => none

structure PathItem where
  get : Option Operation := none
  put : Option Operation := none
  post : Option Operation := none
  delete : Option Operation := none
  patch : Option Operation := none

namespace PathItem

def get? (i : PathItem) : Method → Option Operation
  | .get => i.get
  | .put => i.put
  | .post => i.post
  | .delete => i.delete
  | .patch => i.patch

def set (i : PathItem) (m : Method) (o : Operation) : PathItem :=
  match m with
  | .get => { i with get := some o }
  | .put => { i with put := some o }
  | .post => { i with post := some o }
  | .delete => { i with delete := some o }
  | .patch => { i with patch := some o }

def operations (i : PathItem) : List (Method × Operation) :=
  Method.all.filterMap fun m => (i.get? m).map fun o => (m, o)

def methods (i : PathItem) : List Method := i.operations.map Prod.fst

def map (f : Operation → Operation) (i : PathItem) : PathItem :=
  { get := i.get.map f, put := i.put.map f, post := i.post.map f, delete := i.delete.map f
    patch := i.patch.map f }

end PathItem

end YangApi
