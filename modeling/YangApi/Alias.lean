import YangApi.Document.Basic
import YangApi.Document.Model
import YangApi.Text

/-! Definitions that only stand for another one. An alias is a composition of exactly one reference
to a different name. Aliases leave a document: references go to their targets, and so do the texts
that name them, their definitions are dropped, and compositions are ordered. -/

namespace YangApi

/-- Aliases with their targets, in the order of the aliases. -/
abbrev AliasMap := List (String × String)

namespace AliasMap

def get? (m : AliasMap) (name : String) : Option String :=
  (m.find? (·.1 = name)).map Prod.snd

def names (m : AliasMap) : List String := m.map Prod.fst

/-- The target of an alias; any other name stays. -/
def target (m : AliasMap) (name : String) : String := (m.get? name).getD name

def sorted (m : AliasMap) : AliasMap := m.mergeSort fun a b => !decide (b.1 < a.1)

def entry? (e : String × Model) : Option (String × String) :=
  match e.2.aliasTarget? with
  | some t => if t = e.1 then none else some (e.1, t)
  | none => none

def ofDefinitions (t : Table Model) : AliasMap := sorted (t.entries.filterMap entry?)

/-- Follows the map from `name` until it ends or the next name was seen. Every step adds a name of
the map to `seen`, so as many steps as the map has names reach the end. -/
def follow (m : AliasMap) : (steps : Nat) → (seen : List String) → (name : String) → String
  | 0, _, name => name
  | steps + 1, seen, name =>
    match m.get? name with
    | none => name
    | some next => if next ∈ seen then name else follow m steps (name :: seen) next

def closed (m : AliasMap) : AliasMap := m.map fun e => (e.1, m.follow m.length [e.1] e.2)

end AliasMap

def sortNames (names : List String) : List String := names.mergeSort fun a b => !decide (b < a)

namespace Model

def isRef (m : Model) : Bool := m.refName?.isSome

def nameLe (a b : Model) : Bool := !decide (b.refName?.getD "" < a.refName?.getD "")

/-- Inline parts first; equal names keep their order. -/
def arrange (parts : List Model) : List Model :=
  (parts.filter fun p => !p.isRef) ++ (parts.filter isRef).mergeSort nameLe

/-- Orders the parts and interfaces of a composition, but not those inside its parts. -/
def sortParts : Model → Model
  | .composed d parts interfaces => .composed d (arrange parts) (sortNames interfaces)
  | m => m

mutual

/-- Orders compositions at every depth, inner ones first. -/
def sort : Model → Model
  | .composed d parts interfaces => .composed d (arrange (sortAll parts)) (sortNames interfaces)
  | m => m

def sortAll : List Model → List Model
  | [] => []
  | p :: ps => p.sort :: sortAll ps

end

end Model

def Property.retarget (m : AliasMap) : Property → Property
  | .ref n d => .ref (m.target n) d
  | .array p d => .array (p.retarget m) d
  | .scalar s => .scalar s

def Plain.retarget (m : AliasMap) (p : Plain) : Plain :=
  { p with properties := p.properties.map (Table.map fun _ q => q.retarget m) }

mutual

def Model.retarget (m : AliasMap) : Model → Model
  | .ref n => .ref (m.target n)
  | .composed d parts interfaces =>
    .composed d (Model.retargetAll m parts) (interfaces.map m.target)
  | .plain p => .plain (p.retarget m)

def Model.retargetAll (m : AliasMap) : List Model → List Model
  | [] => []
  | p :: ps => p.retarget m :: Model.retargetAll m ps

end

mutual

/-- A warning for each plain model without properties, in the name of `owner`. -/
def Model.warnings (owner : String) : Model → List Warning
  | .ref _ => []
  | .composed _ parts _ => Model.warningsAll owner parts
  | .plain p => if p.isEmpty then [.noProperties owner] else []

def Model.warningsAll (owner : String) : List Model → List Warning
  | [] => []
  | p :: ps => p.warnings owner ++ Model.warningsAll owner ps

end

namespace AliasMap

/-- Renames the first alias that occurs in a text. -/
def retargetText (m : AliasMap) (s : String) : String :=
  match m.find? fun e => Text.occurs e.1 s with
  | some (old, new) => Text.replaceAll old new s
  | none => s

def renameIn (m : AliasMap) (old s : String) : String :=
  match m.get? old with
  | some new => Text.replaceAll old new s
  | none => s

end AliasMap

/-- The description names the alias only if the schema is a reference itself. -/
def BodyParam.retarget (m : AliasMap) (b : BodyParam) : BodyParam :=
  { b with
    schema := b.schema.retarget m
    description :=
      match b.schema with
      | .ref old => b.description.map (m.renameIn old)
      | _ => b.description }

def BodyParam.warnings (b : BodyParam) : List Warning := b.schema.warnings b.name

def Parameter.retarget (m : AliasMap) : Parameter → Parameter
  | .body b => .body (b.retarget m)
  | .path p => .path p

def Parameter.warnings : Parameter → List Warning
  | .body b => b.warnings
  | .path _ => []

def Property.retargetSchema (m : AliasMap) (p : Property) : Property :=
  match p.refName? with
  | some old => (p.retarget m).withDescription (p.description.map (m.renameIn old))
  | none => p

def Response.retarget (m : AliasMap) (r : Response) : Response :=
  { schema := r.schema.map (Property.retargetSchema m)
    description :=
      match r.schema.bind Property.refName? with
      | some old => m.renameIn old r.description
      | none => r.description }

def Operation.retarget (m : AliasMap) (o : Operation) : Operation :=
  { o with
    description := o.description.map m.retargetText
    parameters := o.parameters.map (Parameter.retarget m)
    responses := o.responses.map fun _ r => r.retarget m }

def Operation.warnings (o : Operation) : List Warning := o.parameters.flatMap Parameter.warnings

structure CollapseReport where
  aliases : AliasMap
  skipped : Bool
  deriving DecidableEq

namespace Document

/-- The aliases of a document, chains followed to their end if `chains` says so. -/
def aliases (chains : Bool) (definitions : Table Model) : AliasMap :=
  let m := AliasMap.ofDefinitions definitions
  if chains then m.closed else m

def collapseDefinitions (m : AliasMap) (definitions : Table Model) : Table Model :=
  ((definitions.map fun _ d => d.retarget m).filterKeys fun name => name ∉ m.names).map
    fun _ d => d.sort

def propertyWarnings (d : Document) (definitions : Table Model) : List Warning :=
  (definitions.entries.flatMap fun e => e.2.warnings e.1) ++
    d.operations.flatMap Operation.warnings

/-- A document without definitions stays as it is. -/
def collapse (chains : Bool) (d : Document) : Document × CollapseReport × List Warning :=
  match d.definitions.filter fun t => !t.isEmpty with
  | none => (d, ⟨[], true⟩, [.noDefinitions])
  | some definitions =>
    let m := aliases chains definitions
    let collapsed := { d.mapOperations (Operation.retarget m) with
      definitions := some (collapseDefinitions m definitions) }
    (collapsed, ⟨m, false⟩, d.propertyWarnings definitions)

end Document

end YangApi
