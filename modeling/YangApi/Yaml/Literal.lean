import YangApi.Yaml.Cursor

/-! Reading block scalars: literal ones keep their breaks, folded ones join lines that both start
without a blank. -/

namespace YangApi.Yaml

inductive Chomp where
  | strip
  | clip
  | keep
  deriving DecidableEq

/-- The header of a block scalar; an indentation of zero is to be found out. -/
structure BlockHeader where
  chomp : Chomp
  indent : Nat

def chomp? (c : Char) : Option Chomp :=
  if c = '+' then some .keep else if c = '-' then some .strip else none

def indentDigit? (c : Char) : Option Nat :=
  if '1' ≤ c && c ≤ '9' then some (c.toNat - 48) else none

def BlockHeader.mark? (h : BlockHeader) (c : Char) : Option BlockHeader :=
  match chomp? c with
  | some chomp => if h.chomp = .clip then some { h with chomp } else none
  | none => if h.indent = 0 then (indentDigit? c).map fun indent => { h with indent } else none

def blockHeader (c : Cursor) : BlockHeader × Cursor :=
  let mark := fun (h : BlockHeader) (c : Cursor) =>
    match c.rest.head?.bind h.mark? with
    | some h => (h, c.next)
    | none => (h, c)
  let (h, c) := mark ⟨.clip, 0⟩ c
  mark h c

structure Lead where
  breaks : List Char
  /-- The widest column that spaces reached. -/
  widest : Nat
  after : Cursor

/-- Passes empty lines and the indentation of the next line, at most `indent` columns of it unless
that is zero. No tab may take part. -/
def leadFrom (indent : Nat) (breaks : List Char) (widest : Nat) : Position → List Char →
    Option Lead
  | p, [] => some ⟨breaks, max widest p.column, ⟨[], p⟩⟩
  | p, x :: r =>
    let inside := indent = 0 || p.column < indent
    if x = ' ' && inside then leadFrom indent breaks widest (p.after x) r
    else if x = '\t' && inside then none
    else if isBreak x then
      leadFrom indent (breaks ++ [x]) (max widest p.column) (p.after x) r
    else some ⟨breaks, max widest p.column, ⟨x :: r, p⟩⟩

def lead? (indent : Nat) (c : Cursor) : Option Lead := leadFrom indent [] 0 c.pos c.rest

/-- How a line of a block scalar ends: with the break `last` and the empty lines after it. -/
structure LineEnd where
  last : List Char
  trailing : List Char
  startsBlank : Bool

namespace LineEnd

def joint (e : LineEnd) (literal blank : Bool) : List Char :=
  if !literal && e.last = ['\n'] && !e.startsBlank && !blank then
    (if e.trailing.isEmpty then [' '] else []) ++ e.trailing
  else e.last ++ e.trailing

def kept (e : LineEnd) : Chomp → List Char
  | .strip => []
  | .clip => e.last
  | .keep => e.last ++ e.trailing

end LineEnd

/-- Lines as long as they start in column `indent`, behind the end of another; and how the last of
them ends. -/
def blockLines? (literal : Bool) (indent : Nat) : (steps : Nat) → LineEnd → Cursor →
    Option (List Char × LineEnd × Cursor)
  | 0, _, _ => none
  | steps + 1, before, c =>
    match c.rest with
    | [] => some ([], before, c)
    | x :: _ =>
      if c.pos.column ≠ indent then some ([], before, c)
      else do
        let blank := x = ' ' || x = '\t'
        let line := c.rest.takeWhile fun d => !isBreak d
        let c := c.advance line.length
        let last := c.rest.take 1
        let lead ← lead? indent c.next
        let (cs, e, after) ← blockLines? literal indent steps ⟨last, lead.breaks, blank⟩ lead.after
        return (before.joint literal blank ++ line ++ cs, e, after)

def blockScalar? (literal : Bool) (low steps : Nat) (c : Cursor) :
    Option (List Char × Cursor) := do
  let (header, c) := blockHeader c
  let given := if header.indent = 0 then 0 else low - 1 + header.indent
  let lead ← lead? given (← c.endLine?)
  let indent := if given = 0 then max lead.widest (max low 1) else given
  let (cs, e, c) ← blockLines? literal indent steps ⟨[], lead.breaks, false⟩ lead.after
  return (cs ++ e.kept header.chomp, c)

end YangApi.Yaml
