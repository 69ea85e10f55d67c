/-! Reading typed values. Nothing is converted: a number is no text and a text no number, except
where a format leaves the type of what it wrote open. Unknown fields are ignored, known ones may
stand once. -/

namespace YangApi

inductive DecodeError where
  | expected (what : String)
  | missing (field : String)
  | repeated (field : String)
  | unknown (word : String)
  | surplus (count : Nat)
  | tooDeep
  | tooManyReferences
  deriving DecidableEq

def DecodeError.message : DecodeError → String
  | .expected what => "expected " ++ what
  | .missing field => "missing field '" ++ field ++ "'"
  | .repeated field => "repeated field '" ++ field ++ "'"
  | .unknown word => "unknown word '" ++ word ++ "'"
  | .surplus count => "more than " ++ toString count ++ " items"
  | .tooDeep => "too many levels"
  | .tooManyReferences => "too many references"

/-- Reading may fail. The state is the number of references that may still be followed, which
bounds the work on a text whose parts refer to each other. -/
abbrev Decoded := StateT Nat (Except DecodeError)

namespace Decoded

variable {α : Type}

def fail (e : DecodeError) : Decoded α := throw e

def ofOption (e : DecodeError) : Option α → Decoded α
  | some a => pure a
  | none => fail e

def eval (d : Decoded α) (references : Nat) : Except DecodeError α := StateT.run' d references

def single? (field : String) : List α → Decoded (Option α)
  | [] => pure none
  | [a] => pure (some a)
  | _ => fail (.repeated field)

end Decoded

def wordOf {α : Type} (words : List (String × α)) (s : String) : Decoded α :=
  match words.find? (·.1 = s) with
  | some w => pure w.2
  | none => .fail (.unknown s)

end YangApi
