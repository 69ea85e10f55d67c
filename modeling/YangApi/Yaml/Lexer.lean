import YangApi.Yaml.Literal
import YangApi.Yaml.Mark

/-! The tokens of a YAML text. A key has no mark in front of it: only the colon behind it tells, so
a place where one may start is remembered, and a token is put there when the colon comes. -/

namespace YangApi.Yaml

/-- A place where a key may have started: in front of which token, and whether it must be one. -/
structure Candidate where
  token : Nat
  start : Position
  required : Bool

/-- A key stands on one line with its colon, and has at most 1024 bytes. -/
def Candidate.expired (k : Candidate) (p : Position) : Bool :=
  k.start.line < p.line || k.start.index + 1024 < p.index

structure Lexer where
  cursor : Cursor
  tokens : Array Token
  candidate : Option Candidate
  /-- The candidates outside of each open bracket, the innermost first. -/
  outer : List (Option Candidate)
  /-- Whether a key may start here. -/
  keys : Bool
  /-- The columns of the open blocks, the innermost first. -/
  blocks : List Nat

namespace Lexer

def ofChars (cs : List Char) : Lexer := ⟨.ofChars cs, #[], none, [], true, []⟩

/-- Whether brackets are open. Columns mean nothing between them. -/
def flow (x : Lexer) : Bool := !x.outer.isEmpty

def column (x : Lexer) : Nat := x.cursor.pos.column

/-- The first column of what is inside the innermost block. -/
def low (x : Lexer) : Nat := (x.blocks.head?.map (· + 1)).getD 0

def push (t : Token) (c : Cursor) (x : Lexer) : Lexer :=
  { x with cursor := c, tokens := x.tokens.push t }

def pushOne (t : Token) (x : Lexer) : Lexer := x.push t x.cursor.next

def giveUp? (x : Lexer) : Option Lexer :=
  if x.candidate.any (·.required) then none else some { x with candidate := none }

/-- Here a key may start. In the column of a block it must. -/
def propose? (x : Lexer) : Option Lexer :=
  if x.keys then do
    let required := !x.flow && x.blocks.head? = some x.column
    let y ← x.giveUp?
    return { y with candidate := some ⟨x.tokens.size, x.cursor.pos, required⟩ }
  else some x

def keep? (p : Position) : Option Candidate → Option (Option Candidate)
  | none => some none
  | some k => if !k.expired p then some (some k) else if k.required then none else some none

def expire? (x : Lexer) : Option Lexer := do
  let p := x.cursor.pos
  return { x with candidate := ← keep? p x.candidate, outer := ← x.outer.mapM (keep? p) }

def closeBlocks (low : Nat) (x : Lexer) : Lexer :=
  if x.flow then x
  else
    let blocks := x.blocks.dropWhile (low ≤ ·)
    let closed := x.blocks.length - blocks.length
    { x with blocks, tokens := x.tokens ++ Array.replicate closed .blockEnd }

def openBlock (column token : Nat) (t : Token) (x : Lexer) : Lexer :=
  if !x.flow && x.blocks.head?.all (· < column) then
    { x with blocks := column :: x.blocks, tokens := x.tokens.insertIdxIfInBounds token t }
  else x

/-- Opens a block here. Inside a line none may start. -/
def openHere? (t : Token) (x : Lexer) : Option Lexer :=
  if x.flow then some x
  else if x.keys then some (x.openBlock x.column x.tokens.size t)
  else none

def leave? (x : Lexer) : Option Lexer := do
  let x ← (x.closeBlocks 0).giveUp?
  return { x with keys := false }

def directive? (x : Lexer) : Option Lexer := do
  let x ← x.leave?
  let (t, c) ← Yaml.directive? x.cursor.next
  return x.push t c

def marker? (x : Lexer) : Option Lexer := do
  let x ← x.leave?
  return x.push (if x.cursor.atChar '-' then .documentStart else .documentEnd) (x.cursor.advance 3)

def openFlow? (t : Token) (x : Lexer) : Option Lexer := do
  let x ← x.propose?
  return { x with outer := x.candidate :: x.outer, candidate := none, keys := true }.pushOne t

def closeFlow? (t : Token) (x : Lexer) : Option Lexer := do
  let x ← x.giveUp?
  let x := match x.outer with
    | [] => x
    | k :: ks => { x with candidate := k, outer := ks }
  return { x with keys := false }.pushOne t

def comma? (x : Lexer) : Option Lexer := do
  let x ← x.giveUp?
  return { x with keys := true }.pushOne .comma

def entry? (x : Lexer) : Option Lexer := do
  let x ← (← x.openHere? .listStart).giveUp?
  return { x with keys := true }.pushOne .entry

def key? (x : Lexer) : Option Lexer := do
  let x ← (← x.openHere? .recordStart).giveUp?
  return { x with keys := !x.flow }.pushOne .key

/-- A colon makes the candidate a key. Without one it ends a key that has a mark. -/
def value? (x : Lexer) : Option Lexer :=
  match x.candidate with
  | some k =>
    let x := { x with tokens := x.tokens.insertIdxIfInBounds k.token .key }
    let x := x.openBlock k.start.column k.token .recordStart
    some ({ x with candidate := none, keys := false }.pushOne .value)
  | none => do
    let x ← x.openHere? .recordStart
    return { x with keys := !x.flow }.pushOne .value

/-- A token that may be a key or start one, and behind which none can start. -/
def inline? (read : Cursor → Option (Token × Cursor)) (x : Lexer) : Option Lexer := do
  let x ← x.propose?
  let (t, c) ← read x.cursor
  return { x with keys := false }.push t c

def name? (token : String → Token) : Lexer → Option Lexer :=
  inline? fun c => do
    let (name, c) ← anchorName? c.next
    return (token name, c)

def quoted? (quote : Char) (steps : Nat) : Lexer → Option Lexer :=
  inline? fun c => do
    let (cs, c) ← Yaml.quoted? quote steps c.next
    return (.scalar .quoted (String.ofList cs), c)

/-- Behind a plain scalar that ends with its line a key may start. -/
def plain? (steps : Nat) (x : Lexer) : Option Lexer := do
  let y ← x.propose?
  let p ← Yaml.plain? x.flow x.low steps x.cursor
  return { y with keys := p.endsLine }.push (.scalar .plain (String.ofList p.chars)) p.after

def block? (form : Form) (steps : Nat) (x : Lexer) : Option Lexer := do
  let x ← x.giveUp?
  let (cs, c) ← blockScalar? (form = .literal) x.low steps x.cursor.next
  return { x with keys := true }.push (.scalar form (String.ofList cs)) c

/-- Whether a mark stands here, which outside of brackets is a word of its own. -/
def atMark (x : Lexer) (c : Char) : Bool :=
  x.cursor.atMark c || (x.flow && x.cursor.atChar c)

/-- Reads the token that starts here. `steps` bounds the work on a scalar. -/
def token? (steps : Nat) (x : Lexer) : Option Lexer :=
  if x.column = 0 && x.cursor.atChar '%' then x.directive?
  else if x.cursor.atMarker then x.marker?
  else if x.cursor.atMark '-' then x.entry?
  else if x.atMark '?' then x.key?
  else if x.atMark ':' then x.value?
  else
    match x.cursor.rest.head? with
    | some '[' => x.openFlow? .flowListStart
    | some '\x7b' => x.openFlow? .flowRecordStart
    | some ']' => x.closeFlow? .flowListEnd
    | some '\x7d' => x.closeFlow? .flowRecordEnd
    | some ',' => x.comma?
    | some '*' => x.name? .alias
    | some '&' => x.name? .anchor
    | some '!' => x.inline? (tag? x.flow)
    | some '\x27' => x.quoted? '\x27' steps
    | some '\x22' => x.quoted? '\x22' steps
    | some '|' => if x.flow then none else x.block? .literal steps
    | some '>' => if x.flow then none else x.block? .folded steps
    | _ => x.plain? steps

/-- The tokens from here on. One step more than there are characters is enough. -/
def run? : (steps : Nat) → Lexer → Option (List Token)
  | 0, _ => none
  | steps + 1, x => do
    let (cursor, keys) := x.cursor.skip x.flow x.keys
    let x ← { x with cursor, keys }.expire?
    let x := x.closeBlocks (x.column + 1)
    if x.cursor.rest.isEmpty then return (← x.leave?).tokens.toList
    else run? steps (← x.token? (steps + 1))

end Lexer

def Token.listOf? (s : String) : Option (List Token) := do
  let cs ← characters? s
  Lexer.run? (cs.length + 1) (.ofChars cs)

end YangApi.Yaml
