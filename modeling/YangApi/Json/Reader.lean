import YangApi.Json.Number
import YangApi.Json.Text

/-! Strict JSON: no comments, no trailing commas. What is read keeps everything that the text says;
limits are for those who ask for a value. -/

namespace YangApi.Json

inductive Node where
  | null
  | bool (b : Bool)
  | number (n : Number)
  | text (q : Quoted)
  | list (items : List Node)
  | record (fields : List (Quoted × Node))
  deriving Inhabited

def isBlank (c : Char) : Bool := c = ' ' || c = '\n' || c = '\t' || c = '\r'

def skipBlanks (cs : List Char) : List Char := cs.dropWhile isBlank

mutual

/-- A value and what follows. `steps` bounds the calls. -/
def value? : (steps : Nat) → List Char → Option (Node × List Char)
  | 0, _ => none
  | steps + 1, cs =>
    match skipBlanks cs with
    | 'n' :: 'u' :: 'l' :: 'l' :: r => some (.null, r)
    | 't' :: 'r' :: 'u' :: 'e' :: r => some (.bool true, r)
    | 'f' :: 'a' :: 'l' :: 's' :: 'e' :: r => some (.bool false, r)
    | '\x22' :: r => (quoted? r).map fun (q, r) => (.text q, r)
    | '[' :: r =>
      match skipBlanks r with
      | ']' :: r => some (.list [], r)
      | r => do
        let (ns, r) ← items? steps r
        return (.list ns, r)
    | '\x7b' :: r =>
      match skipBlanks r with
      | '\x7d' :: r => some (.record [], r)
      | r => do
        let (fs, r) ← fields? steps r
        return (.record fs, r)
    | r => (number? r).map fun (n, r) => (.number n, r)

def items? : (steps : Nat) → List Char → Option (List Node × List Char)
  | 0, _ => none
  | steps + 1, cs => do
    let (n, r) ← value? steps cs
    match skipBlanks r with
    | ',' :: r =>
      let (ns, r) ← items? steps r
      return (n :: ns, r)
    | ']' :: r => return ([n], r)
    | _ => none

def fields? : (steps : Nat) → List Char → Option (List (Quoted × Node) × List Char)
  | 0, _ => none
  | steps + 1, cs => do
    let '\x22' :: r := skipBlanks cs | none
    let (q, r) ← quoted? r
    let ':' :: r := skipBlanks r | none
    let (n, r) ← value? steps r
    match skipBlanks r with
    | ',' :: r =>
      let (fs, r) ← fields? steps r
      return ((q, n) :: fs, r)
    | '\x7d' :: r => return ([(q, n)], r)
    | _ => none

end

def Node.read? (cs : List Char) : Option (Node × List Char) := value? (cs.length + 1) cs

end YangApi.Json
