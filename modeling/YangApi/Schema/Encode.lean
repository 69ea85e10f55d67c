import YangApi.Datum
import YangApi.Schema.Context

/-! Writing schema trees. What is absent or empty is left out, but presence, the duty to give a
leaf, and the lists of cases, case nodes, enumeration values and union members always stand. -/

namespace YangApi

mutual

def LeafType.fields : LeafType → Value.Fields
  | .string => [("base", .text "string")]
  | .boolean => [("base", .text "boolean")]
  | .int8 => [("base", .text "int8")]
  | .int16 => [("base", .text "int16")]
  | .int32 => [("base", .text "int32")]
  | .int64 => [("base", .text "int64")]
  | .uint8 => [("base", .text "uint8")]
  | .uint16 => [("base", .text "uint16")]
  | .uint32 => [("base", .text "uint32")]
  | .uint64 => [("base", .text "uint64")]
  | .decimal64 => [("base", .text "decimal64")]
  | .empty => [("base", .text "empty")]
  | .binary => [("base", .text "binary")]
  | .enumeration vs => [("base", .text "enumeration"), ("values", Value.texts vs)]
  | .leafref p => [("base", .text "leafref"), ("path", .text p)]
  | .identityref b => [("base", .text "identityref"), ("base-identity", .text b)]
  | .union ts => [("base", .text "union"), ("types", .list (LeafType.values ts))]

def LeafType.values : List LeafType → List Value
  | [] => []
  | t :: ts => .record t.fields :: LeafType.values ts

end

def LeafType.value (t : LeafType) : Value := .record t.fields

def Declared.fields (d : Declared) : Value.Fields :=
  [("name", .text d.name)] ++ Value.ifSome "module" .text d.owner ++
    Value.ifSome "config" .bool d.config ++ Value.ifSome "description" .text d.description ++
    Value.ifSome "grouping" .text d.grouping

mutual

def Node.value : Node Declared → Value
  | .inner d (.container presence) us cs =>
    .record ([("kind", .text "container")] ++ d.fields ++ Value.ifAny "children" (Node.values cs) ++
      Value.ifAny "uses" (us.map .text) ++ [("presence", .bool presence)])
  | .inner d (.list keys) us cs =>
    .record ([("kind", .text "list")] ++ d.fields ++ Value.ifAny "keys" (keys.map .text) ++
      Value.ifAny "children" (Node.values cs) ++ Value.ifAny "uses" (us.map .text))
  | .choice d ks =>
    .record ([("kind", .text "choice")] ++ d.fields ++ [("cases", .list (Node.caseValues ks))])
  | .leaf d t m v =>
    .record ([("kind", .text "leaf")] ++ d.fields ++ [("type", t.value), ("mandatory", .bool m)] ++
      Value.ifSome "default" .text v)
  | .leafList d t => .record ([("kind", .text "leaf-list")] ++ d.fields ++ [("type", t.value)])
  | .anyxml d => .record ([("kind", .text "anyxml")] ++ d.fields)

def Node.values : List (Node Declared) → List Value
  | [] => []
  | n :: ns => n.value :: Node.values ns

def Node.caseValues : Cases Declared → List Value
  | [] => []
  | (name, ns) :: ks =>
    .record [("name", .text name), ("children", .list (Node.values ns))] :: Node.caseValues ks

end

def RpcSide.value (s : RpcSide Declared) : Value :=
  .record (s.head.fields ++ Value.ifAny "children" (Node.values s.children) ++
    Value.ifAny "uses" (s.uses.map .text) ++ [("presence", .bool s.presence)])

def Rpc.value (r : Rpc Declared) : Value :=
  .record ([("name", .text r.name)] ++ Value.ifSome "module" .text r.owner ++
    Value.ifSome "description" .text r.description ++ Value.ifSome "input" RpcSide.value r.input ++
    Value.ifSome "output" RpcSide.value r.output)

def Grouping.value (g : Grouping Declared) : Value :=
  .record ([("name", .text g.name)] ++ Value.ifSome "description" .text g.description ++
    Value.ifAny "children" (Node.values g.children) ++ Value.ifAny "uses" (g.uses.map .text))

def Module.value (m : Module Declared) : Value :=
  .record ([("name", .text m.name)] ++ Value.ifSome "namespace" .text m.xmlNamespace ++
    Value.ifSome "prefix" .text m.abbreviation ++ Value.ifSome "revision" .text m.revision ++
    Value.ifSome "description" .text m.description ++
    Value.ifAny "children" (Node.values m.children) ++ Value.ifAny "rpcs" (m.rpcs.map Rpc.value) ++
    Value.ifAny "groupings" (m.groupings.map Grouping.value))

def Context.value (c : Context) : Value :=
  .record [("modules", .list (c.declared.map Module.value))]

end YangApi
