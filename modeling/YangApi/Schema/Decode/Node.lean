import YangApi.Schema.Decode.Leaf

/-! Reading schema nodes: records with a field `kind`. A node is settled before it is read, with all
that is below it. Inside a tree a kind may be given by its position in the list of kinds. -/

namespace YangApi

def Declared.ofFields (fs : Fields Datum) : Decoded Declared := do
  return {
    name := ← fs.optional "name" "" Datum.asText
    owner := ← fs.option "module" Datum.asText
    config := ← fs.option "config" Datum.asBool
    description := ← fs.option "description" Datum.asText
    grouping := ← fs.option "grouping" Datum.asText }

def Node.kinds : List String := ["container", "list", "choice", "leaf", "leaf-list", "anyxml"]

structure NodePart where
  datum : Datum
  nodes : Decoded (List (Node Declared))
  cases : Decoded (Cases Declared)

def Node.ofFields (kind : String) (fields : List (Datum × NodePart)) :
    Decoded (Node Declared) := do
  let fs ← Datum.keyed [] fields
  let ds : Fields Datum := fs.map fun f => (f.1, f.2.datum)
  match kind with
  | "container" =>
    let children ← fs.optional "children" [] NodePart.nodes
    let uses ← ds.optional "uses" [] Source.texts
    let presence ← ds.optional "presence" false Datum.asBool
    return .inner (← Declared.ofFields ds) (.container presence) uses children
  | "list" =>
    let keys ← ds.optional "keys" [] Source.texts
    let children ← fs.optional "children" [] NodePart.nodes
    let uses ← ds.optional "uses" [] Source.texts
    return .inner (← Declared.ofFields ds) (.list keys) uses children
  | "choice" =>
    let cases ← fs.optional "cases" [] NodePart.cases
    return .choice (← Declared.ofFields ds) cases
  | "leaf" =>
    let type ← ds.require "type" LeafType.ofDatum
    let mandatory ← ds.optional "mandatory" false Datum.asBool
    let default ← ds.option "default" Datum.asText
    return .leaf (← Declared.ofFields ds) type mandatory default
  | "leaf-list" =>
    let type ← ds.require "type" LeafType.ofDatum
    return .leafList (← Declared.ofFields ds) type
  | "anyxml" => return .anyxml (← Declared.ofFields ds)
  | _ => .fail (.unknown kind)

def Node.caseOfFields (fs : Fields NodePart) : Decoded (String × List (Node Declared)) := do
  let name ← fs.require "name" fun p => p.datum.asText
  return (name, ← fs.optional "children" [] NodePart.nodes)

mutual

def Node.ofDatum : Datum → Decoded (Node Declared)
  | .record fs => do
    let (kind, fs) ← Datum.extract "kind" (Node.fieldsOf fs)
    Node.ofFields (← kind.datum.asName Node.kinds) fs
  | _ => .fail (.expected "a node")

def Node.fieldsOf : List (Datum × Datum) → List (Datum × NodePart)
  | [] => []
  | (k, d) :: fs => (k, ⟨d, Node.listOf d, Node.casesOf d⟩) :: Node.fieldsOf fs

def Node.partsOf : List Datum → List NodePart
  | [] => []
  | d :: ds => ⟨d, Node.listOf d, Node.casesOf d⟩ :: Node.partsOf ds

def Node.listOf : Datum → Decoded (List (Node Declared))
  | .list ds => Node.allOf ds
  | _ => .fail (.expected "a list")

def Node.allOf : List Datum → Decoded (List (Node Declared))
  | [] => pure []
  | d :: ds => do
    let n ← Node.ofDatum d
    return n :: (← Node.allOf ds)

def Node.casesOf : Datum → Decoded (Cases Declared)
  | .list ds => Node.allCases ds
  | _ => .fail (.expected "a list")

def Node.allCases : List Datum → Decoded (Cases Declared)
  | [] => pure []
  | d :: ds => do
    let k ← Node.caseOf d
    return k :: (← Node.allCases ds)

/-- A case is a record, or a list of its name and nodes. -/
def Node.caseOf : Datum → Decoded (String × List (Node Declared))
  | .record fs => do Node.caseOfFields (← Datum.keyed ["name", "children"] (Node.fieldsOf fs))
  | .list ds => do Node.caseOfFields (← Datum.positional ["name", "children"] (Node.partsOf ds))
  | _ => .fail (.expected "a case")

end

def Node.decode {σ : Type} [Source σ] (s : σ) : Decoded (Node Declared) := do
  match ← Source.tagged "kind" s with
  | (kind, .record fs) => Node.ofFields kind (Node.fieldsOf fs)
  | _ => .fail (.expected "a node")

end YangApi
