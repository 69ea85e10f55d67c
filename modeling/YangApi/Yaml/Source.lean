import YangApi.Decode.Settled
import YangApi.Yaml.Graph

/-! Reading typed values from YAML. A plain scalar takes the type that is asked of it. A node that
nobody asks for may be anything; one that is settled may hold no tag that only readers know. -/

namespace YangApi.Yaml

def Graph.follow (g : Graph) : Node → Decoded Node
  | .alias number => do
    match ← get with
    | 0 => .fail .tooManyReferences
    | references + 1 =>
      set references
      Decoded.ofOption (.expected "an anchor") (g.anchors.node? number)
  | n => pure n

def refuseLocal (tag : Option String) : Decoded Unit :=
  if (localTag? tag).isSome then .fail (.expected "no local tag") else pure ()

def Graph.settle (g : Graph) : (room : Nat) → Node → Decoded Datum
  | room, n => do
    match room, ← g.follow n with
    | _, .scalar s => Decoded.ofOption (.expected "a value") s.datum?
    | room + 1, .list tag ns =>
      refuseLocal tag
      return .list (← ns.mapM (g.settle room))
    | room + 1, .record tag fs =>
      refuseLocal tag
      return .record (← fs.mapM fun f => do return (← g.settle room f.1, ← g.settle room f.2))
    | _, _ => .fail .tooDeep

/-- A node in a document, and how many more levels may open there. -/
structure Place where
  graph : Graph
  room : Nat
  node : Node

namespace Place

/-- The root of a document: 128 levels may open. -/
def root (g : Graph) : Place := ⟨g, 128, g.root⟩

def references (g : Graph) : Nat := g.root.size * 100

def follow (p : Place) : Decoded Place := return { p with node := ← p.graph.follow p.node }

def inner (p : Place) : Decoded (Node → Place) :=
  match p.room with
  | 0 => .fail .tooDeep
  | room + 1 => pure fun n => ⟨p.graph, room, n⟩

def settle (p : Place) : Decoded Datum := p.graph.settle p.room p.node

def scalar (p : Place) : Decoded Scalar := do
  match ← p.graph.follow p.node with
  | .scalar s => return s
  | _ => .fail (.expected "a scalar")

def text (p : Place) : Decoded String := return (← p.scalar).text

def bool (p : Place) : Decoded Bool := do
  Decoded.ofOption (.expected "true or false") (← p.scalar).bool?

def count (p : Place) : Decoded Nat := do
  Decoded.ofOption (.expected "a count") (← p.scalar).count?

def word (p : Place) : Decoded String := do (← p.scalar).word

def present? (p : Place) : Decoded (Option Place) := do
  let p ← p.follow
  match p.node with
  | .scalar s => return if ← s.isAbsent then none else some p
  | _ => return some p

def items (p : Place) : Decoded (List Place) := do
  match ← p.graph.follow p.node with
  | .list _ ns => return ns.map (← p.inner)
  | .scalar s => if s.isEmpty then return [] else .fail (.expected "a list")
  | _ => .fail (.expected "a list")

def entries (p : Place) : Decoded (Fields Place) := do
  match ← p.graph.follow p.node with
  | .record _ fs => do
    let inner ← p.inner
    fs.mapM fun f => do return (← (inner f.1).text, inner f.2)
  | .scalar s => if s.isEmpty then return [] else .fail (.expected "a record")
  | _ => .fail (.expected "a record")

def tagged (name : String) (p : Place) : Decoded (String × Datum) := do
  match ← p.graph.follow p.node with
  | .record tag fs => do
    refuseLocal tag
    let inner ← p.inner
    let fs ← fs.mapM fun f => do return (← (inner f.1).settle, inner f.2)
    let (word, fs) ← Datum.extract name fs
    return (← word.text, .record (← fs.mapM fun f => do return (f.1, ← f.2.settle)))
  | .list tag (n :: ns) => do
    refuseLocal tag
    let inner ← p.inner
    return (← (inner n).text, .list (← ns.mapM fun n => (inner n).settle))
  | _ => .fail (.expected "a tag")

instance : Source Place where
  text := text
  bool := bool
  count := count
  word := word
  present? := present?
  items := items
  entries := entries
  fields _ := entries
  tagged := tagged
  settle := settle

end Place

end YangApi.Yaml
