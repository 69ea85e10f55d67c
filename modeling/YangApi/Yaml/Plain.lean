import YangApi.Datum
import YangApi.Numeral

/-! What a scalar without quotes means when nothing in particular is expected. -/

namespace YangApi.Yaml

def isNull (s : String) : Bool := s = "" || s = "~" || s = "null" || s = "Null" || s = "NULL"

def bool? (s : String) : Option Bool :=
  if s = "true" || s = "True" || s = "TRUE" then some true
  else if s = "false" || s = "False" || s = "FALSE" then some false
  else none

def digit? (c : Char) : Option Nat :=
  if c.isDigit then some (c.toNat - 48)
  else if 'a' ≤ c && c ≤ 'f' then some (c.toNat - 87)
  else if 'A' ≤ c && c ≤ 'F' then some (c.toNat - 55)
  else none

def digits? (base : Nat) (cs : List Char) : Option Nat :=
  if cs.isEmpty then none
  else cs.foldl (fun n c => do
    let n ← n
    let d ← digit? c
    if d < base then some (n * base + d) else none) (some 0)

/-- Zeros in front of further digits make a text, not a number. -/
def isZeroPadded (s : String) : Bool :=
  match (Numeral.splitSign s.toList).2 with
  | '0' :: c :: cs => (c :: cs).all Char.isDigit
  | _ => false

def magnitude? (padded : Bool) : List Char → Option Nat
  | '0' :: 'x' :: cs => digits? 16 cs
  | '0' :: 'o' :: cs => digits? 8 cs
  | '0' :: 'b' :: cs => digits? 2 cs
  | cs => if padded then none else digits? 10 cs

def integer? (s : String) : Option Int :=
  match s.toList with
  | '-' :: cs => (magnitude? (isZeroPadded s) cs).map fun n => -(n : Int)
  | '+' :: cs => (magnitude? (isZeroPadded s) cs).map Int.ofNat
  | cs => (magnitude? (isZeroPadded s) cs).map Int.ofNat

/-- A number from zero to the largest word of 64 bits, not written with a minus sign. -/
def natural? (s : String) : Option Nat :=
  if s.startsWith "-" then none
  else ((integer? s).map Int.toNat).filter (· < Nat.pow 2 64)

def isInfinity (s : String) : Bool :=
  s ∈ [".inf", ".Inf", ".INF", "+.inf", "+.Inf", "+.INF", "-.inf", "-.Inf", "-.INF"]

def isNaN (s : String) : Bool := s ∈ [".nan", ".NaN", ".NAN"]

/-- A decimal numeral with a finite value, or one of the words for infinity and not-a-number. -/
def isFloat (s : String) : Bool := isInfinity s || isNaN s || isFiniteNumeral s

/-- How far an integer is read as one. Of 64 bits it has a value; one that only 128 bits hold has
none; beyond that it is no integer. -/
inductive Width where
  | word
  | wide
  | none
  deriving DecidableEq

def widthOf (i : Int) : Width :=
  if -(Nat.pow 2 63 : Nat) ≤ i && i < (Nat.pow 2 64 : Nat) then .word
  else if -(Nat.pow 2 127 : Nat) ≤ i && i < (Nat.pow 2 128 : Nat) then .wide
  else .none

def width (s : String) : Width := (integer? s).elim .none widthOf

def wordDatum (s : String) : Datum := (natural? s).elim .number .natural

/-- The meaning of a plain scalar; an integer that is too wide has none. -/
def meaning? (s : String) : Option Datum :=
  if isNull s then some .null
  else match bool? s with
    | some b => some (.bool b)
    | none =>
      match width s with
      | .word => some (wordDatum s)
      | .wide => none
      | .none => some (if !isZeroPadded s && isFloat s then .number else .text s)

/-- Whether a text, written plain, would be taken for something else or for a padded number. -/
def isAmbiguous (s : String) : Bool :=
  match meaning? s with
  | some (.text _) => isZeroPadded s
  | _ => true

end YangApi.Yaml
