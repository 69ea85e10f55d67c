import YangApi.Yaml.Lexer
import YangApi.Yaml.Node

/-! The nodes of a document. Anchors are numbered, and aliases hold numbers. -/

namespace YangApi.Yaml

/-- What is known of anchors. A new anchor has as number the count of names known before it. A name
that is given again is known already, so the next new name takes over the number of the repeated
one. -/
structure Anchors where
  numbers : List (String × Nat) := []
  /-- The number of each anchor, the latest first. -/
  given : List Nat := []
  /-- The nodes behind anchors, each with the count of anchors before its own. -/
  nodes : List (Nat × Node) := []

namespace Anchors

def number? (a : Anchors) (name : String) : Option Nat :=
  (a.numbers.find? (·.1 = name)).map Prod.snd

def give (a : Anchors) (name : String) : Anchors :=
  let number := a.numbers.length
  { a with
    numbers := (name, number) :: a.numbers.filter (·.1 ≠ name)
    given := number :: a.given }

def node? (a : Anchors) (number : Nat) : Option Node :=
  let later := a.given.takeWhile (· ≠ number)
  let place := a.given.length - later.length - 1
  (a.nodes.find? (·.1 = place)).map Prod.snd

end Anchors

structure Graph where
  root : Node
  anchors : Anchors

abbrev Composing := StateT Anchors Option

abbrev Handles := List (String × String)

def Handles.initial : Handles := [("!", "!"), ("!!", coreTag "")]

def Handles.tag? (hs : Handles) (handle rest : String) : Option String :=
  if handle = "" then some rest
  else (hs.find? (·.1 = handle)).map fun h => h.2 ++ rest

structure Properties where
  anchor : Option String := none
  tag : Option String := none

def properties? (hs : Handles) : List Token → Option (Properties × List Token)
  | .anchor a :: .tag h r :: ts => do return (⟨some a, some (← hs.tag? h r)⟩, ts)
  | .tag h r :: .anchor a :: ts => do return (⟨some a, some (← hs.tag? h r)⟩, ts)
  | .anchor a :: ts => some (⟨some a, none⟩, ts)
  | .tag h r :: ts => do return (⟨none, some (← hs.tag? h r)⟩, ts)
  | ts => some ({}, ts)

def Properties.scalar (p : Properties) (form : Form) (text : String) : Node :=
  .scalar ⟨p.tag, form, text⟩

def Properties.empty? (p : Properties) : Option Node :=
  if p.anchor.isNone && p.tag.isNone then none else some (.scalar ⟨p.tag, .plain, ""⟩)

/-- Gives an anchor; the answer is the count of anchors before it. -/
def giveAnchor : Option String → Composing (Option Nat)
  | none => return none
  | some name => do
    let a ← get
    set (a.give name)
    return some a.given.length

def keepNode (n : Node) : Option Nat → Composing Unit
  | none => return ()
  | some place => modify fun a => { a with nodes := (place, n) :: a.nodes }

def fieldEnds : List Token := [.key, .value, .blockEnd]

mutual

/-- A node and what follows. `steps` bounds the calls; `block` says that it may be a block, and
`hanging` that a list may start without a token of its own. -/
def node? (hs : Handles) : (steps : Nat) → (block hanging : Bool) → List Token →
    Composing (Node × List Token)
  | 0, _, _, _ => failure
  | _ + 1, _, _, .alias name :: ts => do return (.alias (← (← get).number? name), ts)
  | steps + 1, block, hanging, ts => do
    let (p, ts) ← properties? hs ts
    let place ← giveAnchor p.anchor
    let (n, ts) ← content? hs steps block hanging p ts
    keepNode n place
    return (n, ts)

def content? (hs : Handles) : (steps : Nat) → (block hanging : Bool) → Properties → List Token →
    Composing (Node × List Token)
  | 0, _, _, _, _ => failure
  | steps + 1, _, true, p, .entry :: ts => do
    let (ns, ts) ← hanging? hs steps (.entry :: ts)
    return (.list p.tag ns, ts)
  | _ + 1, _, _, p, .scalar form text :: ts => return (p.scalar form text, ts)
  | steps + 1, _, _, p, .flowListStart :: ts => do
    let (ns, ts) ← flowItems? hs steps ts
    return (.list p.tag ns, ts)
  | steps + 1, _, _, p, .flowRecordStart :: ts => do
    let (fs, ts) ← flowFields? hs steps ts
    return (.record p.tag fs, ts)
  | steps + 1, true, _, p, .listStart :: ts => do
    let (ns, ts) ← entries? hs steps ts
    return (.list p.tag ns, ts)
  | steps + 1, true, _, p, .recordStart :: ts => do
    let (fs, ts) ← fields? hs steps ts
    return (.record p.tag fs, ts)
  | _ + 1, _, _, p, ts => do return (← p.empty?, ts)

/-- A node, which is left out in front of certain tokens. -/
def part? (hs : Handles) : (steps : Nat) → (ends : List Token) → (block hanging : Bool) →
    List Token → Composing (Node × List Token)
  | 0, _, _, _, _ => failure
  | steps + 1, ends, block, hanging, ts =>
    if ts.head?.any (· ∈ ends) then return (.empty, ts) else node? hs steps block hanging ts

/-- The value of a field, which is left out without a mark. -/
def value? (hs : Handles) : (steps : Nat) → (ends : List Token) → (block : Bool) → List Token →
    Composing (Node × List Token)
  | 0, _, _, _ => failure
  | steps + 1, ends, block, .value :: ts => part? hs steps ends block block ts
  | _ + 1, _, _, ts => return (.empty, ts)

def entries? (hs : Handles) : (steps : Nat) → List Token → Composing (List Node × List Token)
  | 0, _ => failure
  | steps + 1, .entry :: ts => do
    let (n, ts) ← part? hs steps [.entry, .blockEnd] true false ts
    let (ns, ts) ← entries? hs steps ts
    return (n :: ns, ts)
  | _ + 1, .blockEnd :: ts => return ([], ts)
  | _ + 1, _ => failure

def hanging? (hs : Handles) : (steps : Nat) → List Token → Composing (List Node × List Token)
  | 0, _ => failure
  | steps + 1, .entry :: ts => do
    let (n, ts) ← part? hs steps (.entry :: fieldEnds) true false ts
    let (ns, ts) ← hanging? hs steps ts
    return (n :: ns, ts)
  | _ + 1, ts => return ([], ts)

def fields? (hs : Handles) : (steps : Nat) → List Token →
    Composing (List (Node × Node) × List Token)
  | 0, _ => failure
  | steps + 1, .key :: ts => do
    let (k, ts) ← part? hs steps fieldEnds true true ts
    let (n, ts) ← value? hs steps fieldEnds true ts
    let (fs, ts) ← fields? hs steps ts
    return ((k, n) :: fs, ts)
  | _ + 1, .blockEnd :: ts => return ([], ts)
  | _ + 1, _ => failure

/-- The items between brackets, from behind the opening one or a comma. A key with a value is a
record of its own. -/
def flowItems? (hs : Handles) : (steps : Nat) → List Token → Composing (List Node × List Token)
  | 0, _ => failure
  | _ + 1, .flowListEnd :: ts => return ([], ts)
  | steps + 1, ts => do
    let (n, ts) ←
      match ts with
      | .key :: ts => pair? hs steps ts
      | ts => node? hs steps false false ts
    match ts with
    | .comma :: ts =>
      let (ns, ts) ← flowItems? hs steps ts
      return (n :: ns, ts)
    | .flowListEnd :: ts => return ([n], ts)
    | _ => failure

/-- A record of one field among items. Where its key is left out, so is the token behind it. -/
def pair? (hs : Handles) : (steps : Nat) → List Token → Composing (Node × List Token)
  | 0, _ => failure
  | steps + 1, ts => do
    let (k, ts) ←
      if ts.head?.any (· ∈ [.value, .comma, .flowListEnd]) then pure (.empty, ts.tail)
      else node? hs steps false false ts
    let (n, ts) ← value? hs steps [.comma, .flowListEnd] false ts
    return (.record none [(k, n)], ts)

def flowFields? (hs : Handles) : (steps : Nat) → List Token →
    Composing (List (Node × Node) × List Token)
  | 0, _ => failure
  | _ + 1, .flowRecordEnd :: ts => return ([], ts)
  | steps + 1, ts => do
    let (f, ts) ←
      match ts with
      | .key :: ts => do
        let (k, ts) ← part? hs steps [.value, .comma, .flowRecordEnd] false false ts
        let (n, ts) ← value? hs steps [.comma, .flowRecordEnd] false ts
        pure ((k, n), ts)
      | ts => do
        let (k, ts) ← node? hs steps false false ts
        pure ((k, .empty), ts)
    match ts with
    | .comma :: ts =>
      let (fs, ts) ← flowFields? hs steps ts
      return (f :: fs, ts)
    | .flowRecordEnd :: ts => return ([f], ts)
    | _ => failure

end

/-- The directives in front of a document: at most one version, and it must be known; each handle
once. -/
def directives? (versioned : Bool) (hs : Handles) : List Token → Option (Handles × List Token)
  | .version major minor :: ts =>
    if versioned || major ≠ 1 || (minor ≠ 1 && minor ≠ 2) then none else directives? true hs ts
  | .handle name lead :: ts =>
    if hs.any (·.1 = name) then none else directives? versioned (hs ++ [(name, lead)]) ts
  | ts => some (hs ++ .initial, ts)

/-- The node of a document and what follows. Directives need a mark behind them, and only behind a
mark the node may be left out. -/
def document? (ts : List Token) : Composing (Node × List Token) := do
  let (hs, rest) ← directives? false [] ts
  let steps := 4 * ts.length + 4
  match rest with
  | [.documentStart] => return (.empty, [])
  | .documentStart :: rest => part? hs steps [.documentEnd] true false rest
  | _ => if rest.length = ts.length then node? hs steps true false rest else failure

def Graph.read? (s : String) : Option Graph := do
  let ts ← Token.listOf? s
  if ts.isEmpty then return ⟨.empty, {}⟩
  else
    let ((root, rest), anchors) ← (document? ts).run {}
    if rest.all (· = .documentEnd) then return ⟨root, anchors⟩ else none

end YangApi.Yaml
