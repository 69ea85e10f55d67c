import YangApi.Datum
import YangApi.Decode.Basic

/-! Places that typed values are read from. Every format has places of its own; what a record looks
like is said once, for all of them. -/

namespace YangApi

/-- A place that can be asked for a value of some type. -/
class Source (σ : Type) where
  text : σ → Decoded String
  bool : σ → Decoded Bool
  /-- A number from zero to the largest word of 64 bits. -/
  count : σ → Decoded Nat
  word : σ → Decoded String
  /-- The place of a value, unless it says that there is none. -/
  present? : σ → Decoded (Option σ)
  items : σ → Decoded (List σ)
  entries : σ → Decoded (List (String × σ))
  /-- The fields of a record that some formats also write as a list in the order of `names`. -/
  fields : (names : List String) → σ → Decoded (List (String × σ))
  /-- The tag of a record, which its field `name` holds, or of a list, whose first item it is; and
  what is left of the record or list. -/
  tagged : (name : String) → σ → Decoded (String × Datum)
  settle : σ → Decoded Datum

namespace Source

variable {σ α : Type} [Source σ]

def option (f : σ → Decoded α) (s : σ) : Decoded (Option α) := do
  match ← present? s with
  | some s => return some (← f s)
  | none => return none

def list (f : σ → Decoded α) (s : σ) : Decoded (List α) := do (← items s).mapM f

def texts : σ → Decoded (List String) := list text

def oneOf (words : List (String × α)) (s : σ) : Decoded α := do wordOf words (← word s)

end Source

abbrev Fields (σ : Type) := List (String × σ)

namespace Fields

variable {σ α : Type}

/-- The field `name`, which must not stand twice. -/
def find? (fs : Fields σ) (name : String) : Decoded (Option σ) :=
  Decoded.single? name ((fs.filter (·.1 = name)).map Prod.snd)

def require (fs : Fields σ) (name : String) (f : σ → Decoded α) : Decoded α := do
  match ← fs.find? name with
  | some s => f s
  | none => .fail (.missing name)

def optional (fs : Fields σ) (name : String) (default : α) (f : σ → Decoded α) : Decoded α := do
  match ← fs.find? name with
  | some s => f s
  | none => return default

/-- A field that may be left out, and may say that there is nothing. -/
def option [Source σ] (fs : Fields σ) (name : String) (f : σ → Decoded α) : Decoded (Option α) :=
  fs.optional name none (Source.option f)

end Fields

end YangApi
