/-! Values of data formats: as they are read, and as they are written. -/

namespace YangApi

/-- Data that was read. Of numbers only those from zero to the largest word of 64 bits are kept,
`number` is any other; a key of a record need not be a text. -/
inductive Datum where
  | null
  | bool (b : Bool)
  | natural (n : Nat)
  | number
  | text (s : String)
  | list (items : List Datum)
  | record (fields : List (Datum × Datum))
  deriving Inhabited

/-- Values as they are written; a record lists its fields in the order of the output. -/
inductive Value where
  | bool (b : Bool)
  | number (n : Nat)
  | text (s : String)
  | list (items : List Value)
  | record (fields : List (String × Value))
  deriving Inhabited

abbrev Value.Fields := List (String × Value)

def Value.texts (ss : List String) : Value := .list (ss.map .text)

/-- A field that stands only when there is something to say. -/
def Value.ifSome {α : Type} (name : String) (f : α → Value) : Option α → Value.Fields
  | none => []
  | some a => [(name, f a)]

def Value.ifAny (name : String) : List Value → Value.Fields
  | [] => []
  | vs => [(name, .list vs)]

mutual

/-- What a reader finds where a value was written. -/
def Value.datum : Value → Datum
  | .bool b => .bool b
  | .number n => .natural n
  | .text s => .text s
  | .list vs => .list (Value.dataOf vs)
  | .record fs => .record (Value.dataOfFields fs)

def Value.dataOf : List Value → List Datum
  | [] => []
  | v :: vs => v.datum :: Value.dataOf vs

def Value.dataOfFields : List (String × Value) → List (Datum × Datum)
  | [] => []
  | (k, v) :: fs => (.text k, v.datum) :: Value.dataOfFields fs

end

end YangApi
