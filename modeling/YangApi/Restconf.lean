import YangApi.Definitions.Strategy
import YangApi.Document.Operation
import YangApi.Naming
import YangApi.Segment
import YangApi.Visit

/-! Where RESTCONF puts data and procedures, by the path templates of RFC 8040, and the operations
that it has for them. -/

namespace YangApi.Restconf

def placeholder (param : String) : String := "\x7b" ++ param ++ "\x7d"

/-- One level of a data path. The module stands where it differs from the one above, the
parameters of a list after an equals sign. -/
def part (above : Option String) (l : Level) : String :=
  let name := if above = some l.owner then l.name else l.owner ++ ":" ++ l.name
  if l.params.isEmpty then name else name ++ "=" ++ ",".intercalate (l.params.map placeholder)

def parts (above : Option String) : List Level → List String
  | [] => []
  | l :: ls => part above l :: parts (some l.owner) ls

def dataPath (s : Segment) : String := "/data/" ++ "/".intercalate (parts none s.levels)

def operationPath (owner rpc : String) : String := "/operations/" ++ owner ++ ":" ++ rpc

def operationId (m : Method) (s : Segment) : String :=
  m.name ++ String.join (s.names.map camelCase)

def base (rules : List TagRule) (m : Method) (s : Segment) : Operation :=
  { id := some (operationId m s)
    tags := TagRule.collect rules s
    parameters := s.params.map fun name => .path ⟨name, none⟩ }

def body (name definition description : String) : Parameter :=
  .body ⟨name, some description, true, .ref definition⟩

def responses (rs : List (String × Response)) : Table Response := .ofList rs

def returning (description definition : String) : Response :=
  ⟨description, some (.ref definition none)⟩

def getData (rules : List TagRule) (s : Segment) (definition : String) : Operation :=
  { base rules .get s with
    description := some ("returns " ++ definition)
    responses := responses
      [("200", returning definition definition), ("400", { description := "Internal error" })] }

def withBody (o : Operation) (p : Parameter) : Operation :=
  { o with parameters := o.parameters ++ [p] }

def putData (rules : List TagRule) (s : Segment) (definition : String) : Operation :=
  let added := body "body" definition (definition ++ " to be added or updated")
  { withBody (base rules .put s) added with
    description := some ("creates or updates " ++ definition)
    responses := responses
      [("201", { description := "Object created" }),
        ("204", { description := "Object modified" })] }

def postData (rules : List TagRule) (s : Segment) (definition : String) : Operation :=
  let added := body "body" definition (definition ++ " to be added to list")
  { withBody (base rules .post s) added with
    description := some ("creates " ++ definition)
    responses := responses
      [("201", { description := "Object created" }),
        ("409", { description := "Object already exists" })] }

def deleteData (rules : List TagRule) (s : Segment) (definition : String) : Operation :=
  { base rules .delete s with
    description := some ("removes " ++ definition)
    responses := responses [("204", { description := "Object deleted" })] }

/-- Data can always be read, and written unless the segment is read-only. -/
def setData (rules : List TagRule) (s : Segment) (definition : String) (i : PathItem) : PathItem :=
  let i := i.set .get (getData rules s definition)
  if s.isReadOnly then i
  else
    ((i.set .put (putData rules s definition)).set .post (postData rules s definition)).set .delete
      (deleteData rules s definition)

/-- Procedures are invoked by POST; `input` and `output` are the definitions of the sides. -/
def invoke (rules : List TagRule) (s : Segment) (r : Rpc Resolved) (input output : Option String) :
    Operation :=
  let o := base rules .post s
  let o :=
    match input with
    | some name => withBody o (body "input" name (name ++ " input"))
    | none => o
  { o with
    description := some (r.description.getD ("invokes rpc " ++ r.name))
    responses := responses
      [match output with
        | some name => ("200", returning (name ++ " returned") name)
        | none => ("204", { description := "Rpc completed" })] }

def defineSide (strategy : Strategy) (c : Context) (d : Draft) (r : Rpc Resolved)
    (direction : Direction) : Draft × Option String :=
  match r.side direction with
  | none => (d, none)
  | some side => strategy.nameOfSide (strategy.add c d side.interior) r direction

def visit (rules : List TagRule) (strategy : Strategy) (c : Context) (moduleName : String)
    (d : Draft) : Visit → Draft
  | .path node s =>
    let (d, definition) := strategy.nameOf d node.head
    { d with document := d.document.updatePath (dataPath s) (setData rules s definition) }
  | .define node => strategy.add c d node
  | .rpc r s =>
    let (d, input) := defineSide strategy c d r .input
    let (d, output) := defineSide strategy c d r .output
    let path := operationPath (r.ownerIn moduleName) r.name
    { d with
      document := d.document.updatePath path (·.set .post (invoke rules s r input output)) }

end YangApi.Restconf
