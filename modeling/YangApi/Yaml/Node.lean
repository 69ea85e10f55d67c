import YangApi.Decode.Basic
import YangApi.Yaml.Plain

/-! The parts of a YAML text, and what they say. Blocks have no brackets of their own, so a token
stands where one opens and where it closes. Nodes may have a tag, and may refer to each other. -/

namespace YangApi.Yaml

inductive Form where
  | plain
  | quoted
  | literal
  | folded
  deriving DecidableEq

inductive Token where
  | version (major minor : Nat)
  | handle (name lead : String)
  | documentStart
  | documentEnd
  | listStart
  | recordStart
  | blockEnd
  | flowListStart
  | flowListEnd
  | flowRecordStart
  | flowRecordEnd
  | entry
  | comma
  | key
  | value
  | alias (name : String)
  | anchor (name : String)
  | tag (handle rest : String)
  | scalar (form : Form) (text : String)
  deriving DecidableEq

structure Scalar where
  tag : Option String
  form : Form
  text : String

/-- Aliases stand for the node whose anchor has the number. -/
inductive Node where
  | scalar (s : Scalar)
  | alias (number : Nat)
  | list (tag : Option String) (items : List Node)
  | record (tag : Option String) (fields : List (Node × Node))
  deriving Inhabited

def Node.empty : Node := .scalar ⟨none, .plain, ""⟩

mutual

/-- The number of scalars, aliases, and starts and ends of lists and records. -/
def Node.size : Node → Nat
  | .scalar _ => 1
  | .alias _ => 1
  | .list _ ns => Node.sizeAll ns + 2
  | .record _ fs => Node.sizeFields fs + 2

def Node.sizeAll : List Node → Nat
  | [] => 0
  | n :: ns => n.size + Node.sizeAll ns

def Node.sizeFields : List (Node × Node) → Nat
  | [] => 0
  | (k, n) :: fs => k.size + n.size + Node.sizeFields fs

end

def coreTag (name : String) : String := "tag:yaml.org,2002:" ++ name

def isLocal (tag : String) : Bool := tag.startsWith "!"

/-- The name of a tag that only its readers know. A tag with a zero character has no name. -/
def localTag? (tag : Option String) : Option String := do
  let t ← tag
  match t.toList with
  | ['!'] => some t
  | '!' :: cs => if '\x00' ∈ cs then none else some (String.ofList cs)
  | _ => none

namespace Scalar

/-- Whether the form leaves the type open, or the tag says that it is `type`. -/
def mayBe (type : String) (s : Scalar) : Bool :=
  s.form = .plain || (s.form = .literal && s.tag = some (coreTag type))

def bool? (s : Scalar) : Option Bool := if s.mayBe "bool" then Yaml.bool? s.text else none

def count? (s : Scalar) : Option Nat := if s.mayBe "int" then natural? s.text else none

/-- A scalar left out stands for a list or record without parts too. -/
def isEmpty (s : Scalar) : Bool := s.form = .plain && s.text = ""

/-- Whether the scalar says that there is nothing. A tag says for sure; it must not be wrong. -/
def isAbsent (s : Scalar) : Decoded Bool :=
  if s.form ≠ .plain then return false
  else
    match s.tag with
    | none => return isNull s.text
    | some t =>
      if t ≠ coreTag "null" then return false
      else if isNull s.text && s.text ≠ "" then return true
      else .fail (.expected "nothing")

/-- A word of an enumeration: the text, or a tag of the reader in front of nothing. -/
def word (s : Scalar) : Decoded String :=
  match localTag? s.tag with
  | none => return s.text
  | some t =>
    if s.form = .plain && isNull s.text then return t else .fail (.expected "a word")

def tagged? (tag text : String) : Option Datum :=
  if tag = coreTag "bool" then (Yaml.bool? text).map .bool
  else if tag = coreTag "int" then
    if width text = .word then some (wordDatum text) else none
  else if tag = coreTag "float" then if isFloat text then some .number else none
  else if tag = coreTag "null" then
    if isNull text && text ≠ "" then some .null else none
  else some (.text text)

def untagged? (s : Scalar) : Option Datum :=
  if s.form = .plain then meaning? s.text else some (.text s.text)

/-- What a scalar means when nothing in particular is expected. Readers know no tags here. -/
def datum? (s : Scalar) : Option Datum :=
  match s.tag with
  | some t =>
    if (localTag? s.tag).isSome then none
    else if isLocal t then s.untagged?
    else tagged? t s.text
  | none => s.untagged?

end Scalar

end YangApi.Yaml
