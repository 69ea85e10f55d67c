import YangApi.Decode.Settled
import YangApi.Schema.Node

/-! Reading leaf types: a record with a field `base`, or a list that starts with the base. Inside a
tree a base may be given by its position in the list of bases. -/

namespace YangApi

def LeafType.simple : List (String × LeafType) :=
  [("string", .string), ("boolean", .boolean), ("int8", .int8), ("int16", .int16),
    ("int32", .int32), ("int64", .int64), ("uint8", .uint8), ("uint16", .uint16),
    ("uint32", .uint32), ("uint64", .uint64), ("decimal64", .decimal64), ("empty", .empty),
    ("binary", .binary)]

def LeafType.bases : List String :=
  LeafType.simple.map Prod.fst ++ ["enumeration", "leafref", "identityref", "union"]

/-- A part of a type, read as a list of types too. -/
structure TypePart where
  datum : Datum
  members : Decoded (List LeafType)

def TypePart.text (p : TypePart) : Decoded String := p.datum.asText

def TypePart.texts (p : TypePart) : Decoded (List String) := Source.texts p.datum

inductive TypeParts where
  | fields (fs : List (Datum × TypePart))
  | items (ps : List TypePart)

def TypeParts.named (names : List String) : TypeParts → Decoded (Fields TypePart)
  | .fields fs => Datum.keyed names fs
  | .items ps => Datum.positional names ps

/-- A type that is only a name ignores fields but not items. -/
def TypeParts.ignored : TypeParts → Decoded Unit
  | .items (_ :: _) => .fail (.surplus 0)
  | _ => pure ()

def LeafType.ofParts (base : String) (parts : TypeParts) : Decoded LeafType := do
  match base with
  | "enumeration" =>
    let fs ← parts.named ["values"]
    return .enumeration (← fs.optional "values" [] TypePart.texts)
  | "leafref" =>
    let fs ← parts.named ["path"]
    return .leafref (← fs.require "path" TypePart.text)
  | "identityref" =>
    let fs ← parts.named ["base-identity"]
    return .identityref (← fs.require "base-identity" TypePart.text)
  | "union" =>
    let fs ← parts.named ["types"]
    return .union (← fs.optional "types" [] TypePart.members)
  | _ =>
    parts.ignored
    wordOf LeafType.simple base

mutual

def LeafType.ofDatum : Datum → Decoded LeafType
  | .record fs => do
    let (base, fs) ← Datum.extract "base" (LeafType.fieldsOf fs)
    LeafType.ofParts (← base.datum.asName LeafType.bases) (.fields fs)
  | .list (base :: ds) => do
    LeafType.ofParts (← base.asName LeafType.bases) (.items (LeafType.partsOf ds))
  | _ => .fail (.expected "a type")

def LeafType.fieldsOf : List (Datum × Datum) → List (Datum × TypePart)
  | [] => []
  | (k, d) :: fs => (k, ⟨d, LeafType.membersOf d⟩) :: LeafType.fieldsOf fs

def LeafType.partsOf : List Datum → List TypePart
  | [] => []
  | d :: ds => ⟨d, LeafType.membersOf d⟩ :: LeafType.partsOf ds

def LeafType.membersOf : Datum → Decoded (List LeafType)
  | .list ds => LeafType.allOf ds
  | _ => .fail (.expected "a list")

def LeafType.allOf : List Datum → Decoded (List LeafType)
  | [] => pure []
  | d :: ds => do
    let t ← LeafType.ofDatum d
    return t :: (← LeafType.allOf ds)

end

def LeafType.decode {σ : Type} [Source σ] (s : σ) : Decoded LeafType := do
  match ← Source.tagged "base" s with
  | (base, .record fs) => LeafType.ofParts base (.fields (LeafType.fieldsOf fs))
  | (base, .list ds) => LeafType.ofParts base (.items (LeafType.partsOf ds))
  | _ => .fail (.expected "a type")

end YangApi
