import YangApi.Yaml.Plain

/-! Scalars as text. A text is quoted when a reader would take it, written plain, for something else,
and escaped when nothing milder keeps all its characters. Lines after the first start at the column
that the scalar is given. -/

namespace YangApi.Yaml

def isBreak (c : Char) : Bool :=
  c = '\n' || c = '\r' || c = '\u0085' || c = '\u2028' || c = '\u2029'

def isBlankOrBreak (c : Char) : Bool := c = ' ' || c = '\t' || isBreak c

/-- The characters that need no escape. Tabs do, and so do controls, byte order marks and
noncharacters; a line feed does not. -/
def isPrintable (c : Char) : Bool :=
  c = '\n' || (' ' ≤ c && c ≤ '~') || ('\u00A0' ≤ c && c ≤ '\uFFFD' && c ≠ '\uFEFF') ||
    0x10000 ≤ c.toNat

def isFollowed (p q : Char → Bool) (cs : List Char) : Bool :=
  (cs.zip cs.tail).any fun (a, b) => p a && q b

def isSpace (c : Char) : Bool := c = ' '

def endsWord : List Char → Bool
  | [] => true
  | c :: _ => isBlankOrBreak c

/-- The characters that mean something at the start of a scalar. -/
def indicators : List Char :=
  ['#', ',', '[', ']', '\x7b', '\x7d', '&', '*', '!', '|', '>', '\x27', '\x22', '%', '@', '\x60']

def mayStart (c : Char) (rest : List Char) : Bool :=
  if c ∈ indicators then false
  else if c = '?' || c = ':' || c = '-' then !endsWord rest
  else true

/-- No colon ends a word, no comment starts. -/
def mayContinue (before : Char) : List Char → Bool
  | [] => true
  | c :: cs =>
    !(c = ':' && endsWord cs) && !(c = '#' && isBlankOrBreak before) && mayContinue c cs

def startsMarker (cs : List Char) : Bool :=
  ['-', '-', '-'].isPrefixOf cs || ['.', '.', '.'].isPrefixOf cs

def isPlainSafe (cs : List Char) : Bool :=
  match cs with
  | [] => true
  | c :: rest =>
    !startsMarker cs && mayStart c rest && mayContinue c rest && c ≠ ' ' &&
      cs.getLast? ≠ some ' ' && cs.all isPrintable && !cs.any isBreak

/-- Between single quotes nothing can be escaped, and no space can stand beside a line break. -/
def isQuoteSafe (cs : List Char) : Bool :=
  cs.all isPrintable && !isFollowed isBreak isSpace cs && !isFollowed isSpace isBreak cs

/-- In a literal block no line but an inner one may end in a space. -/
def isLiteralSafe (cs : List Char) : Bool :=
  cs.all isPrintable && cs.getLast? ≠ some ' ' && !isFollowed isSpace isBreak cs

inductive Style where
  | plain
  | single
  | double
  | literal
  deriving DecidableEq

def styleOf (s : String) : Style :=
  let cs := s.toList
  if '\n' ∈ cs then (if isLiteralSafe cs then .literal else .double)
  else if !isAmbiguous s && isPlainSafe cs then .plain
  else if isQuoteSafe cs then .single
  else .double

def pad (column : Nat) : List Char := List.replicate column ' '

def hexDigit (n : Nat) : Char := (Nat.digitChar (n % 16)).toUpper

def hexDigits : (width : Nat) → Nat → List Char
  | 0, _ => []
  | width + 1, n => hexDigits width (n / 16) ++ [hexDigit n]

def shortEscapes : List (Char × Char) :=
  [('\x00', '0'), ('\x07', 'a'), ('\x08', 'b'), ('\t', 't'), ('\n', 'n'), ('\x0b', 'v'),
    ('\x0c', 'f'), ('\r', 'r'), ('\x1b', 'e'), ('\x22', '\x22'), ('\\', '\\'), ('\u0085', 'N'),
    ('\u00A0', '_'), ('\u2028', 'L'), ('\u2029', 'P')]

def escape (c : Char) : List Char :=
  match shortEscapes.find? (·.1 = c) with
  | some e => ['\\', e.2]
  | none =>
    let n := c.toNat
    if n < 0x100 then '\\' :: 'x' :: hexDigits 2 n
    else if n < 0x10000 then '\\' :: 'u' :: hexDigits 4 n
    else '\\' :: 'U' :: hexDigits 8 n

def doubleQuoted (c : Char) : List Char :=
  if isPrintable c && !isBreak c && c ≠ '\x22' && c ≠ '\\' then [c] else escape c

/-- Text between single quotes, its end included. A line feed is written twice unless it follows
another break, because a single one would be read as a space. -/
def singleQuoted (column : Nat) : (afterBreak : Bool) → List Char → List Char
  | afterBreak, [] => if afterBreak then pad column else []
  | afterBreak, c :: cs =>
    if isBreak c then
      (if c = '\n' && !afterBreak then ['\n', '\n'] else [c]) ++ singleQuoted column true cs
    else
      (if afterBreak then pad column else []) ++ (if c = '\x27' then ['\x27', '\x27'] else [c]) ++
        singleQuoted column false cs

def literalLines (column : Nat) : (afterBreak : Bool) → List Char → List Char
  | _, [] => []
  | afterBreak, c :: cs =>
    if isBreak c then c :: literalLines column true cs
    else (if afterBreak then pad column else []) ++ c :: literalLines column false cs

/-- Tells the reader the indentation when the first line would mislead it. -/
def indentHint (cs : List Char) : List Char :=
  match cs with
  | c :: _ => if c = ' ' || isBreak c then ['2'] else []
  | [] => []

/-- No final break is marked by a minus sign, more than one by a plus sign. -/
def chompHint (cs : List Char) : List Char :=
  match cs.reverse with
  | [] => ['-']
  | [c] => if isBreak c then ['+'] else ['-']
  | c :: d :: _ => if !isBreak c then ['-'] else if isBreak d then ['+'] else []

def endsInBreak (cs : List Char) : Bool := cs.getLast?.any isBreak

/-- A text as a scalar; a literal block that ends in a break takes its line with it. -/
def scalar (column : Nat) (s : String) : List Char :=
  let cs := s.toList
  match styleOf s with
  | .plain => cs
  | .single => '\x27' :: singleQuoted column false cs ++ ['\x27']
  | .double => '\x22' :: cs.flatMap doubleQuoted ++ ['\x22']
  | .literal => '|' :: indentHint cs ++ chompHint cs ++ '\n' :: literalLines column true cs

def scalarLine (column : Nat) (s : String) : List Char :=
  scalar column s ++ (if styleOf s = .literal && endsInBreak s.toList then [] else ['\n'])

/-- A key that fits in front of its value: at most 128 bytes and no break. -/
def isSimpleKey (s : String) : Bool := s.utf8ByteSize ≤ 128 && !s.toList.any isBreak

end YangApi.Yaml
