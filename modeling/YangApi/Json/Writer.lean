import YangApi.Datum

/-! JSON text: one item a line, two spaces a level, escapes only where they are needed. -/

namespace YangApi.Json

def hexDigit (n : Nat) : Char := Nat.digitChar (n % 16)

def escape (c : Char) : List Char :=
  if c = '\x22' then ['\\', '\x22']
  else if c = '\\' then ['\\', '\\']
  else if c = '\n' then ['\\', 'n']
  else if c = '\r' then ['\\', 'r']
  else if c = '\t' then ['\\', 't']
  else if c = '\x08' then ['\\', 'b']
  else if c = '\x0c' then ['\\', 'f']
  else if c.toNat < 32 then ['\\', 'u', '0', '0', hexDigit (c.toNat / 16), hexDigit c.toNat]
  else [c]

def quote (s : String) : String := "\"" ++ String.ofList (s.toList.flatMap escape) ++ "\""

def newline (level : Nat) : String := "\n" ++ String.ofList (List.replicate (2 * level) ' ')

mutual

/-- A value at a level of nesting, without the line that it starts on. -/
def pretty (level : Nat) : Value → String
  | .bool b => if b then "true" else "false"
  | .number n => toString n
  | .text s => quote s
  | .list [] => "[]"
  | .list (v :: vs) =>
    "[" ++ newline (level + 1) ++ pretty (level + 1) v ++ prettyItems (level + 1) vs ++
      newline level ++ "]"
  | .record [] => "\x7b\x7d"
  | .record ((k, v) :: fs) =>
    "\x7b" ++ newline (level + 1) ++ quote k ++ ": " ++ pretty (level + 1) v ++
      prettyFields (level + 1) fs ++ newline level ++ "\x7d"

def prettyItems (level : Nat) : List Value → String
  | [] => ""
  | v :: vs => "," ++ newline level ++ pretty level v ++ prettyItems level vs

def prettyFields (level : Nat) : List (String × Value) → String
  | [] => ""
  | (k, v) :: fs =>
    "," ++ newline level ++ quote k ++ ": " ++ pretty level v ++ prettyFields level fs

end

def write (v : Value) : String := pretty 0 v ++ "\n"

end YangApi.Json
