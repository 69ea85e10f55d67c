import YangApi.Yaml.Cursor
import YangApi.Yaml.Scalar

/-! Reading scalars inside lines: plain words and quoted texts, folded where they run over several
lines. As many steps as there are characters, and one more, are enough. -/

namespace YangApi.Yaml

def brackets : List Char := [',', '[', ']', '\x7b', '\x7d']

/-- The rest of a plain word. Inside brackets a colon must not touch one of them. -/
def word? (flow : Bool) : List Char → Option (List Char)
  | [] => some []
  | c :: cs =>
    if isBlankOrBreak c then some []
    else if c = ':' && endsWord cs then some []
    else if flow && c = ':' && (cs.head?.any fun d => d ∈ brackets || d = '?') then none
    else if flow && c ∈ brackets then some []
    else (word? flow cs).map (c :: ·)

/-- The characters of a plain scalar, the next place with something to read, and whether a line
ends in between. -/
structure Plain where
  chars : List Char
  after : Cursor
  endsLine : Bool

/-- Words up to the end of a plain scalar. A line left of `low`, a comment and a marker end it. -/
def words? (flow : Bool) (low : Nat) : (steps : Nat) → Cursor → Option Plain
  | 0, _ => none
  | steps + 1, c => do
    let w ← word? flow c.rest
    let g ← Gap.read? low [] (c.advance w.length)
    let here : Plain := ⟨w, g.after, !g.breaks.isEmpty⟩
    let outside := !flow && g.after.pos.column < low
    if w.isEmpty || g.isEmpty || outside || g.after.atMarker || g.after.atChar '#' then return here
    else
      let p ← words? flow low steps g.after
      return if p.chars.isEmpty then here else { p with chars := w ++ g.text ++ p.chars }

def startsPlain (flow : Bool) : List Char → Bool
  | [] => false
  | c :: cs => !isBlankOrBreak c && mayStart c cs && !(flow && (c = '?' || c = ':'))

def plain? (flow : Bool) (low steps : Nat) (c : Cursor) : Option Plain :=
  if startsPlain flow c.rest then words? flow low steps c else none

def hexNumber? (width : Nat) (cs : List Char) : Option Nat :=
  if cs.length < width then none else digits? 16 (cs.take width)

def unescape? (cs : List Char) : Option (Char × Nat) :=
  match cs with
  | [] => none
  | c :: r =>
    let coded := fun width => do
      let n ← hexNumber? width r
      if n.isValidChar then some (Char.ofNat n, width + 1) else none
    if c = 'x' then coded 2
    else if c = 'u' then coded 4
    else if c = 'U' then coded 8
    else if c = ' ' || c = '/' then some (c, 1)
    else if c = '\t' then some ('\t', 1)
    else (shortEscapes.find? (·.2 = c)).map fun e => (e.1, 1)

/-- A text up to its closing quote, which is `'` or the double one, from behind the opening one. -/
def quoted? (quote : Char) : (steps : Nat) → Cursor → Option (List Char × Cursor)
  | 0, _ => none
  | steps + 1, c => do
    if c.atMarker then none
    else
      match c.rest with
      | [] => none
      | x :: r =>
        if x = quote then
          if quote = '\x27' && r.head? = some quote then
            let (cs, after) ← quoted? quote steps (c.advance 2)
            return (quote :: cs, after)
          else return ([], c.next)
        else if isBlankOrBreak x then
          let g ← Gap.read? 0 [] c
          let (cs, after) ← quoted? quote steps g.after
          return (g.text ++ cs, after)
        else if quote = '\x22' && x = '\\' then
          if r.head?.any isBreak then
            let g ← Gap.read? 0 ['\n'] (c.advance 2)
            let (cs, after) ← quoted? quote steps g.after
            return (g.breaks.tail ++ cs, after)
          else
            let (y, n) ← unescape? r
            let (cs, after) ← quoted? quote steps (c.advance (n + 1))
            return (y :: cs, after)
        else
          let (cs, after) ← quoted? quote steps c.next
          return (x :: cs, after)

end YangApi.Yaml
