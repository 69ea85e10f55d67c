import YangApi.Decode.Source

/-! Reading typed values from settled data. A field of a record, and a word that has a place in a
list of words, may be given by its position instead of its name. -/

namespace YangApi.Datum

def asText : Datum → Decoded String
  | .text s => pure s
  | _ => .fail (.expected "a text")

def asBool : Datum → Decoded Bool
  | .bool b => pure b
  | _ => .fail (.expected "true or false")

def asCount : Datum → Decoded Nat
  | .natural n => pure n
  | _ => .fail (.expected "a count")

/-- A bare word, or the only field of a record with nothing in it. -/
def asWord : Datum → Decoded String
  | .text s => pure s
  | .record [(.text s, .null)] => pure s
  | _ => .fail (.expected "a word")

def present? : Datum → Decoded (Option Datum)
  | .null => pure none
  | d => pure (some d)

def asList : Datum → Decoded (List Datum)
  | .list ds => pure ds
  | _ => .fail (.expected "a list")

/-- One of some names, by itself or by its position. -/
def asName (names : List String) : Datum → Decoded String
  | .text s => if s ∈ names then pure s else .fail (.unknown s)
  | .natural n => Decoded.ofOption (.expected "a name") names[n]?
  | _ => .fail (.expected "a name")

def asKey (names : List String) : Datum → Decoded (Option String)
  | .text s => pure (some s)
  | .natural n => pure names[n]?
  | _ => .fail (.expected "a key")

def isKey (name : String) : Datum → Bool
  | .text s => s = name
  | _ => false

/-- The fields of a record whose keys stand for names, or positions in `names`. -/
def keyed {α : Type} (names : List String) : List (Datum × α) → Decoded (Fields α)
  | [] => pure []
  | (k, a) :: fs => do
    let name ← k.asKey names
    let fs ← keyed names fs
    return (name.elim fs fun n => (n, a) :: fs)

/-- The fields of a record that has no list form. Positions stand for no field here. -/
def entries : Datum → Decoded (Fields Datum)
  | .record fs => keyed [] fs
  | _ => .fail (.expected "a record")

def positional {α : Type} (names : List String) (as : List α) : Decoded (Fields α) :=
  if names.length < as.length then .fail (.surplus names.length) else pure (names.zip as)

def fields (names : List String) : Datum → Decoded (Fields Datum)
  | .record fs => keyed names fs
  | .list ds => positional names ds
  | _ => .fail (.expected "a record")

def extract {α : Type} (name : String) (fs : List (Datum × α)) :
    Decoded (α × List (Datum × α)) := do
  match ← Decoded.single? name (fs.filter (·.1.isKey name)) with
  | some f => return (f.2, fs.filter fun f => !f.1.isKey name)
  | none => .fail (.missing name)

def tagged (name : String) : Datum → Decoded (String × Datum)
  | .record fs => do
    let (tag, fs) ← extract name fs
    return (← tag.asText, .record fs)
  | .list (tag :: ds) => return (← tag.asText, .list ds)
  | _ => .fail (.expected "a tag")

instance : Source Datum where
  text := asText
  bool := asBool
  count := asCount
  word := asWord
  present? := present?
  items := asList
  entries := entries
  fields := fields
  tagged := tagged
  settle := pure

end YangApi.Datum
