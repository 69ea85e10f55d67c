import YangApi.Numeral

/-! Numbers of JSON: their text, and which of them a reader can hold. -/

namespace YangApi.Json

/-- A whole part without needless zeros, the digits of a fraction, and an exponent with the answer
whether it is negative. -/
structure Number where
  negative : Bool
  whole : List Char
  fraction : List Char
  exponent : Option (Bool × List Char)

def digitsOf (cs : List Char) : List Char × List Char :=
  (cs.takeWhile Char.isDigit, cs.dropWhile Char.isDigit)

def fraction? : List Char → Option (List Char × List Char)
  | '.' :: cs =>
    let (ds, r) := digitsOf cs
    if ds.isEmpty then none else some (ds, r)
  | cs => some ([], cs)

def exponent? : List Char → Option (Option (Bool × List Char) × List Char)
  | c :: cs =>
    if c = 'e' || c = 'E' then
      let (negative, cs) := Numeral.splitSign cs
      let (ds, r) := digitsOf cs
      if ds.isEmpty then none else some (some (negative, ds), r)
    else some (none, c :: cs)
  | [] => some (none, [])

def number? (cs : List Char) : Option (Number × List Char) := do
  let (negative, cs) :=
    match cs with
    | '-' :: r => (true, r)
    | r => (false, r)
  let (whole, cs) := digitsOf cs
  if whole.isEmpty || (whole.head? = some '0' && 1 < whole.length) then none
  else
    let (fraction, cs) ← fraction? cs
    let (exponent, cs) ← exponent? cs
    return (⟨negative, whole, fraction, exponent⟩, cs)

namespace Number

def natural? (n : Number) : Option Nat :=
  let m := Numeral.digitsValue n.whole
  if !n.negative && n.fraction.isEmpty && n.exponent.isNone && m < Nat.pow 2 64 then some m
  else none

/-- Appends digits to a number as long as it stays a word of 64 bits. Says how many it took, and
what is left. -/
def appendDigits : (m taken : Nat) → List Char → Nat × Nat × List Char
  | m, taken, [] => (m, taken, [])
  | m, taken, c :: cs =>
    let n := m * 10 + (c.toNat - 48)
    if n < Nat.pow 2 64 then appendDigits n (taken + 1) cs else (m, taken, c :: cs)

/-- The leading digits that fit in a word, and the power of ten that they are a multiple of, as far
as the point and the digits left out in front of it say. -/
def leading (n : Number) : Nat × Int :=
  let (m, _, skipped) := appendDigits 0 0 n.whole
  let (m, taken, _) := appendDigits m 0 n.fraction
  (m, (skipped.length : Int) - taken)

/-- Whether the product of the leading digits and their power of ten, each rounded to a double,
rounds to a double too. An exponent of more than 31 bits is beyond all doubles, whatever the digits
would make up for. -/
def isFinite (n : Number) : Bool :=
  let (m, power) := n.leading
  match n.exponent with
  | none => m = 0 || fits m power
  | some (negative, ds) =>
    let e := Numeral.digitsValue ds
    if m = 0 then true
    else if Nat.pow 2 31 ≤ e then negative
    else fits m (if negative then power - e else power + e)
where
  fits (m : Nat) (power : Int) : Bool :=
    if power < 0 then true
    else if 308 < power then false
    else Numeral.toDouble m * Numeral.toDouble (Nat.pow 10 power.toNat) < Numeral.overflow

end Number

end YangApi.Json
