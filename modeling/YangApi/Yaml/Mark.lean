import YangApi.Yaml.Inline
import YangApi.Yaml.Node

/-! Reading what stands in front of nodes and documents: anchors, aliases, tags and directives. -/

namespace YangApi.Yaml

def isNameChar (c : Char) : Bool := c.isAlphanum || c = '_' || c = '-'

def isUriChar (c : Char) : Bool :=
  isNameChar c || c ∈ [';', '/', '?', ':', '@', '&', '=', '+', '$', '.', '%', '!', '~', '*', '\x27',
    '(', ')']

def Cursor.take (p : Char → Bool) (c : Cursor) : List Char × Cursor :=
  let cs := c.rest.takeWhile p
  (cs, c.advance cs.length)

/-- The name behind the sign of an anchor or alias. A blank or one of a few signs ends it. -/
def anchorName? (c : Cursor) : Option (String × Cursor) :=
  let (name, c) := c.take isNameChar
  let ended := c.atWordEnd ||
    c.rest.head?.any (· ∈ ['?', ':', ',', ']', '\x7d', '%', '@', '\x60'])
  if name.isEmpty || !ended then none else some (String.ofList name, c)

def encodedSize? (byte : Nat) : Option Nat :=
  if byte < 0x80 then some 1
  else if byte < 0xC0 then none
  else if byte < 0xE0 then some 2
  else if byte < 0xF0 then some 3
  else if byte < 0xF8 then some 4
  else none

def escapedBytes? : (count : Nat) → List Char → Option (List UInt8 × List Char)
  | 0, cs => some ([], cs)
  | count + 1, '%' :: a :: b :: cs => do
    let byte ← digits? 16 [a, b]
    let (bytes, cs) ← escapedBytes? count cs
    return (UInt8.ofNat byte :: bytes, cs)
  | _ + 1, _ => none

/-- The characters that a run of a tag stands for, in which percent signs escape bytes. Bytes that
encode nothing stand for none. -/
def uriChars? : (steps : Nat) → List Char → Option (List (Option Char))
  | 0, _ => none
  | _ + 1, [] => some []
  | steps + 1, '%' :: cs => do
    let ([first], _) ← escapedBytes? 1 ('%' :: cs) | none
    let (bytes, cs) ← escapedBytes? (← encodedSize? first.toNat) ('%' :: cs)
    if bytes.tail.all fun b => b &&& 0xC0 == 0x80 then
      let text := String.fromUTF8? (ByteArray.mk bytes.toArray)
      return text.bind (·.toList.head?) :: (← uriChars? steps cs)
    else none
  | steps + 1, c :: cs => (uriChars? steps cs).map (some c :: ·)

/-- The text of a tag ends before a zero character, so one can show where bytes encode nothing. -/
def uriText (cs : List (Option Char)) : List Char :=
  (cs.takeWhile (· ≠ some '\x00')).map fun c => c.getD '\x00'

/-- A run of characters of a tag; brackets may stand in it if nothing else could be meant. -/
def uri? (bracketed : Bool) (c : Cursor) : Option (List Char × Cursor) := do
  let (run, c) := c.take fun x => isUriChar x || (bracketed && x ∈ [',', '[', ']'])
  return (uriText (← uriChars? (run.length + 1) run), c)

def someUri? (bracketed : Bool) (c : Cursor) : Option (List Char × Cursor) := do
  let (text, after) ← uri? bracketed c
  if after.pos.index = c.pos.index then none else some (text, after)

/-- The tag at an exclamation mark: verbatim between angle brackets, or behind a handle. A single
exclamation mark is a tag of its own. -/
def tag? (flow : Bool) (c : Cursor) : Option (Token × Cursor) := do
  let (token, c) ←
    if c.next.atChar '<' then do
      let (rest, c) ← someUri? true (c.advance 2)
      if c.atChar '>' then some (Token.tag "" (String.ofList rest), c.next) else none
    else do
      let (name, c) := c.next.take isNameChar
      if c.atChar '!' then do
        let (rest, c) ← someUri? false c.next
        some (Token.tag (String.ofList ('!' :: name ++ ['!'])) (String.ofList rest), c)
      else do
        let (rest, c) ← uri? false c
        let rest := name ++ rest
        some (if rest.isEmpty then Token.tag "" "!" else Token.tag "!" (String.ofList rest), c)
  if c.atWordEnd || (flow && c.atChar ',') then some (token, c) else none

def versionNumber? (c : Cursor) : Option (Nat × Cursor) := do
  let (ds, c) := c.take Char.isDigit
  if 9 < ds.length then none else return (← digits? 10 ds, c)

def isBlank (c : Char) : Bool := c = ' ' || c = '\t'

def directiveHandle? (c : Cursor) : Option (String × Cursor) :=
  if c.atChar '!' then
    let (name, c) := c.next.take isNameChar
    if c.atChar '!' then some (String.ofList ('!' :: name ++ ['!']), c.next)
    else if name.isEmpty then some ("!", c)
    else none
  else none

def directive? (c : Cursor) : Option (Token × Cursor) := do
  let (name, c) := c.take isNameChar
  if !c.atWordEnd then none
  else
    let c := c.passWhile isBlank
    match String.ofList name with
    | "YAML" => do
      let (major, c) ← versionNumber? c
      if c.atChar '.' then
        let (minor, c) ← versionNumber? c.next
        return (.version major minor, ← c.endLine?)
      else none
    | "TAG" => do
      let (handle, c) ← directiveHandle? c
      let (lead, after) ← someUri? true (c.passWhile isBlank)
      if c.rest.head?.any isBlank && after.atWordEnd then
        return (.handle handle (String.ofList lead), ← after.endLine?)
      else none
    | _ => none

end YangApi.Yaml
