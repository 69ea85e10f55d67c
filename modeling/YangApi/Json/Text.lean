/-! Quoted texts of JSON. -/

namespace YangApi.Json

def hex? (c : Char) : Option Nat :=
  if c.isDigit then some (c.toNat - 48)
  else if 'a' ≤ c && c ≤ 'f' then some (c.toNat - 87)
  else if 'A' ≤ c && c ≤ 'F' then some (c.toNat - 55)
  else none

def hex4? (a b c d : Char) : Option Nat := do
  return (((← hex? a) * 16 + (← hex? b)) * 16 + (← hex? c)) * 16 + (← hex? d)

def isHighSurrogate (n : Nat) : Bool := 0xD800 ≤ n && n < 0xDC00

def isLowSurrogate (n : Nat) : Bool := 0xDC00 ≤ n && n < 0xE000

def short? (c : Char) : Option Char :=
  if c = '\x22' || c = '\\' || c = '/' then some c
  else if c = 'b' then some '\x08'
  else if c = 'f' then some '\x0c'
  else if c = 'n' then some '\n'
  else if c = 'r' then some '\r'
  else if c = 't' then some '\t'
  else none

/-- The characters of a quoted text, and whether all its surrogates come in pairs. -/
structure Quoted where
  chars : List Char
  whole : Bool

def Quoted.cons (c : Char) (q : Quoted) : Quoted := { q with chars := c :: q.chars }

def Quoted.break (q : Quoted) : Quoted := { q with whole := false }

def Quoted.text? (q : Quoted) : Option String :=
  if q.whole then some (String.ofList q.chars) else none

/-- A text up to its closing quote, and what follows. No control character stands in it. -/
def quoted? : List Char → Option (Quoted × List Char)
  | [] => none
  | '\\' :: 'u' :: a :: b :: c :: d :: cs => do
    let n ← hex4? a b c d
    if isHighSurrogate n then
      match cs with
      | '\\' :: 'u' :: e :: f :: g :: h :: cs' =>
        let m ← hex4? e f g h
        if isLowSurrogate m then
          let (q, r) ← quoted? cs'
          return (q.cons (Char.ofNat (0x10000 + (n - 0xD800) * 0x400 + (m - 0xDC00))), r)
        else
          let (q, r) ← quoted? ('\\' :: 'u' :: e :: f :: g :: h :: cs')
          return (q.break, r)
      | cs =>
        let (q, r) ← quoted? cs
        return (q.break, r)
    else
      let (q, r) ← quoted? cs
      return (if isLowSurrogate n then q.break else q.cons (Char.ofNat n), r)
  | '\\' :: c :: cs => do
    let c ← short? c
    let (q, r) ← quoted? cs
    return (q.cons c, r)
  | c :: cs =>
    if c = '\x22' then some (⟨[], true⟩, cs)
    else if c.toNat < 32 || c = '\\' then none
    else do
      let (q, r) ← quoted? cs
      return (q.cons c, r)
termination_by cs => cs.length

end YangApi.Json
