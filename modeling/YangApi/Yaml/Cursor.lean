import YangApi.Yaml.Scalar

/-! Places in a YAML text. Lines and columns carry the structure, so a place knows its own. -/

namespace YangApi.Yaml

structure Position where
  /-- The number of bytes before it. -/
  index : Nat
  line : Nat
  column : Nat

def Position.start : Position := ⟨0, 0, 0⟩

def Position.after (p : Position) (c : Char) : Position :=
  let index := p.index + c.utf8Size
  if isBreak c then ⟨index, p.line + 1, 0⟩ else ⟨index, p.line, p.column + 1⟩

structure Cursor where
  rest : List Char
  pos : Position

namespace Cursor

def ofChars (cs : List Char) : Cursor := ⟨cs, .start⟩

def next (c : Cursor) : Cursor :=
  match c.rest with
  | [] => c
  | x :: r => ⟨r, c.pos.after x⟩

def advance (c : Cursor) : Nat → Cursor
  | 0 => c
  | n + 1 => c.next.advance n

def atChar (c : Cursor) (x : Char) : Bool := c.rest.head? = some x

def atWordEnd (c : Cursor) : Bool := endsWord c.rest

def atLineEnd (c : Cursor) : Bool := c.rest.head?.all isBreak

/-- Whether the character `x` stands here as a word of its own. -/
def atMark (c : Cursor) (x : Char) : Bool := c.atChar x && c.next.atWordEnd

/-- Three hyphens or three dots at the start of a line stand between documents. -/
def atMarker (c : Cursor) : Bool :=
  c.pos.column = 0 && startsMarker c.rest && endsWord (c.rest.drop 3)

def passWhile (p : Char → Bool) (c : Cursor) : Cursor :=
  c.advance (c.rest.takeWhile p).length

/-- Passes the blanks and the comment at the end of a line; nothing else may stand there. -/
def endLine? (c : Cursor) : Option Cursor :=
  let c := c.passWhile fun x => x = ' ' || x = '\t'
  let c := if c.atChar '#' then c.passWhile fun x => !isBreak x else c
  if c.atLineEnd then some c.next else none

/-- Passes spaces, breaks and comments. A tab is passed between brackets, and where no key may
start; between brackets a break does not let a key start. A byte order mark may stand at the start
of a line. Also says whether a key may start behind all that. -/
def skipFrom (flow : Bool) : (comment keys : Bool) → Position → List Char → Cursor × Bool
  | _, keys, p, [] => (⟨[], p⟩, keys)
  | comment, keys, p, x :: r =>
    if isBreak x then skipFrom flow false (keys || !flow) (p.after x) r
    else if comment || x = '#' then skipFrom flow true keys (p.after x) r
    else if x = ' ' || (x = '\t' && (flow || !keys)) || (x = '\uFEFF' && p.column = 0) then
      skipFrom flow false keys (p.after x) r
    else (⟨x :: r, p⟩, keys)

def skip (flow keys : Bool) (c : Cursor) : Cursor × Bool := skipFrom flow false keys c.pos c.rest

end Cursor

structure Gap where
  spaces : List Char
  breaks : List Char
  after : Cursor

namespace Gap

/-- What the gap stands for: its spaces on one line; else a single break is a space, and of more
the first is dropped. -/
def text (g : Gap) : List Char :=
  match g.breaks with
  | [] => g.spaces
  | b :: bs => if b = '\n' then (if bs.isEmpty then [' '] else bs) else b :: bs

def isEmpty (g : Gap) : Bool := g.spaces.isEmpty && g.breaks.isEmpty

def readFrom (low : Nat) (spaces breaks : List Char) : Position → List Char → Option Gap
  | p, [] => some ⟨spaces, breaks, ⟨[], p⟩⟩
  | p, x :: r =>
    if isBreak x then readFrom low spaces (breaks ++ [x]) (p.after x) r
    else if x = ' ' || x = '\t' then
      if breaks.isEmpty then readFrom low (spaces ++ [x]) breaks (p.after x) r
      else if x = '\t' && p.column < low then none
      else readFrom low spaces breaks (p.after x) r
    else some ⟨spaces, breaks, ⟨x :: r, p⟩⟩

/-- The gap at a cursor, after the breaks already passed. No tab may indent a line left of `low`. -/
def read? (low : Nat) (breaks : List Char) (c : Cursor) : Option Gap :=
  readFrom low [] breaks c.pos c.rest

end Gap

def isAllowed (c : Char) : Bool := isPrintable c || c ∈ ['\t', '\r', '\u0085', '\uFEFF']

/-- One line feed for every carriage return, with or without its line feed, and every next line. -/
def unifyBreaks : List Char → List Char
  | '\r' :: '\n' :: cs => '\n' :: unifyBreaks cs
  | '\r' :: cs => '\n' :: unifyBreaks cs
  | '\u0085' :: cs => '\n' :: unifyBreaks cs
  | c :: cs => c :: unifyBreaks cs
  | [] => []

def characters? (s : String) : Option (List Char) :=
  let cs := s.toList
  if cs.all isAllowed then some (unifyBreaks cs) else none

end YangApi.Yaml
