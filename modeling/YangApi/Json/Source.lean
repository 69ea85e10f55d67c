import YangApi.Decode.Source
import YangApi.Json.Reader

/-! Reading typed values from JSON. A value that nobody asks for may be nested without limit, and
may hold numbers and texts that have no value. -/

namespace YangApi.Json

/-- A value in a text, and how many more levels may open there. -/
structure Place where
  room : Nat
  node : Node

def Quoted.read (q : Quoted) : Decoded String :=
  Decoded.ofOption (.expected "whole surrogate pairs") q.text?

def Number.settle (n : Number) : Decoded Datum :=
  match n.natural? with
  | some m => pure (.natural m)
  | none => if n.isFinite then pure .number else .fail (.expected "a double")

mutual

def Node.settle : (room : Nat) → Node → Decoded Datum
  | _, .null => pure .null
  | _, .bool b => pure (.bool b)
  | _, .number n => n.settle
  | _, .text q => return .text (← q.read)
  | 0, _ => .fail .tooDeep
  | room + 1, .list ns => return .list (← Node.settleAll room ns)
  | room + 1, .record fs => return .record (← Node.settleFields room fs)

def Node.settleAll : (room : Nat) → List Node → Decoded (List Datum)
  | _, [] => pure []
  | room, n :: ns => do
    let d ← n.settle room
    return d :: (← Node.settleAll room ns)

def Node.settleFields : (room : Nat) → List (Quoted × Node) → Decoded (List (Datum × Datum))
  | _, [] => pure []
  | room, (q, n) :: fs => do
    let k ← q.read
    let d ← n.settle room
    return (.text k, d) :: (← Node.settleFields room fs)

end

namespace Place

/-- A value that no other stands around: 127 levels may open. -/
def top (n : Node) : Place := ⟨127, n⟩

def text (p : Place) : Decoded String :=
  match p.node with
  | .text q => q.read
  | _ => .fail (.expected "a text")

def bool (p : Place) : Decoded Bool :=
  match p.node with
  | .bool b => pure b
  | _ => .fail (.expected "true or false")

def count (p : Place) : Decoded Nat :=
  match p.node with
  | .number n => Decoded.ofOption (.expected "a count") n.natural?
  | _ => .fail (.expected "a count")

def word (p : Place) : Decoded String :=
  match p.node with
  | .text q => q.read
  | .record [(q, .null)] => q.read
  | _ => .fail (.expected "a word")

def present? (p : Place) : Decoded (Option Place) :=
  match p.node with
  | .null => pure none
  | _ => pure (some p)

def inner (p : Place) : Decoded Nat :=
  match p.room with
  | 0 => .fail .tooDeep
  | room + 1 => pure room

def items (p : Place) : Decoded (List Place) :=
  match p.node with
  | .list ns => do
    let room ← p.inner
    return ns.map fun n => ⟨room, n⟩
  | _ => .fail (.expected "a list")

def entries (p : Place) : Decoded (Fields Place) :=
  match p.node with
  | .record fs => do
    let room ← p.inner
    fs.mapM fun f => do return (← f.1.read, ⟨room, f.2⟩)
  | _ => .fail (.expected "a record")

def fields (names : List String) (p : Place) : Decoded (Fields Place) :=
  match p.node with
  | .list _ => do
    let ps ← p.items
    if names.length < ps.length then .fail (.surplus names.length) else return names.zip ps
  | _ => p.entries

def tagged (name : String) (p : Place) : Decoded (String × Datum) :=
  match p.node with
  | .list (n :: ns) => do
    let room ← p.inner
    let tag ← text ⟨room, n⟩
    return (tag, .list (← Node.settleAll room ns))
  | _ => do
    let fs ← p.entries
    let tag ← fs.require name text
    let rest ← (fs.filter (·.1 ≠ name)).mapM fun f => do
      return (.text f.1, ← f.2.node.settle f.2.room)
    return (tag, .record rest)

instance : Source Place where
  text := text
  bool := bool
  count := count
  word := word
  present? := present?
  items := items
  entries := entries
  fields := fields
  tagged := tagged
  settle p := p.node.settle p.room

end Place

def read? (s : String) : Option Datum := do
  let (n, r) ← Node.read? s.toList
  if (skipBlanks r).isEmpty then (((Place.top n).node.settle 127).eval 0).toOption else none

end YangApi.Json
