/-! Decimal numerals, and which of them a double can hold. -/

namespace YangApi

/-- A numeral `± mantissa · 10 ^ exponent`. -/
structure Numeral where
  negative : Bool
  mantissa : Nat
  exponent : Int
  deriving DecidableEq

namespace Numeral

def digitsValue (cs : List Char) : Nat := cs.foldl (fun n c => n * 10 + (c.toNat - 48)) 0

def allDigits (cs : List Char) : Bool := !cs.isEmpty && cs.all Char.isDigit

def splitSign : List Char → Bool × List Char
  | '-' :: cs => (true, cs)
  | '+' :: cs => (false, cs)
  | cs => (false, cs)

def exponent? : List Char → Option Int
  | [] => some 0
  | c :: cs =>
    if c = 'e' || c = 'E' then
      let (negative, ds) := splitSign cs
      if allDigits ds then
        some (if negative then -(digitsValue ds : Int) else digitsValue ds)
      else none
    else none

/-- An optional sign, digits with at most one point among or around them, and an exponent. -/
def read? (cs : List Char) : Option Numeral := do
  let (negative, cs) := splitSign cs
  let whole := cs.takeWhile Char.isDigit
  let cs := cs.dropWhile Char.isDigit
  let (fraction, cs) :=
    match cs with
    | '.' :: r => (r.takeWhile Char.isDigit, r.dropWhile Char.isDigit)
    | r => ([], r)
  let e ← exponent? cs
  if whole.isEmpty && fraction.isEmpty then none
  else some ⟨negative, digitsValue (whole ++ fraction), e - fraction.length⟩

/-- The numbers from here on round to infinity: half a unit beyond the largest double. -/
def overflow : Nat := Nat.pow 2 1024 - Nat.pow 2 970

/-- Whether the nearest double is finite. A numeral whose leading digit stands above the 310th
place is too large, so no power beyond that is computed. -/
def fitsDouble (n : Numeral) : Bool :=
  let places : Int := (Nat.toDigits 10 n.mantissa).length + n.exponent
  if n.mantissa = 0 || places ≤ 308 then true
  else if 310 < places then false
  else if 0 ≤ n.exponent then n.mantissa * Nat.pow 10 n.exponent.toNat < overflow
  else n.mantissa < overflow * Nat.pow 10 (-n.exponent).toNat

def roundTo (unit n : Nat) : Nat :=
  let q := n / unit
  let r := n % unit
  if unit < 2 * r || (unit = 2 * r && q % 2 = 1) then (q + 1) * unit else q * unit

/-- The nearest number of 53 significant bits: a double, if it is not too large for one. -/
def toDouble (n : Nat) : Nat := roundTo (Nat.pow 2 (n.log2 + 1 - 53)) n

end Numeral

def isFiniteNumeral (s : String) : Bool :=
  match Numeral.read? s.toList with
  | some n => n.fitsDouble
  | none => false

end YangApi
