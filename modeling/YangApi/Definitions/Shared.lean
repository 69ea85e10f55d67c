import YangApi.Definitions.Draft
import YangApi.Definitions.Property

/-! Definitions that share groupings. A grouping has a definition of its own, a node that uses
groupings is composed of references to them and its own properties, and nodes are keyed by where
they were written, so copies of a grouping's nodes share one definition. -/

namespace YangApi.Shared

def key (r : Resolved) : SchemaPath := r.definitionPath

def nameOf (d : Draft) (r : Resolved) : Draft × String := d.assignPath (key r) r.name

def nameOfGrouping (d : Draft) (reference owner : String) : Draft × String :=
  let g := GroupingRef.read reference owner
  d.assignPath g.path g.name

/-- What a definition is made of, its children aside. -/
structure Source where
  owner : String
  keys : List String
  uses : List String
  description : Option String

def Source.parent (s : Source) : Parent := ⟨s.owner, s.keys⟩

def Source.ofHead (r : Resolved) (shape : Shape) (uses : List String) : Source :=
  ⟨r.owner, shape.keys, uses, r.description⟩

abbrev Use := (reference owner : String) → Draft → Draft × Option String

/-- Uses one more grouping; one that does not exist adds no name. -/
def useStep (use : Use) (owner : String) (acc : Draft × List String) (reference : String) :
    Draft × List String :=
  let (d, name) := use reference owner acc.1
  (d, acc.2 ++ name.toList)

def useAll (use : Use) (owner : String) (uses : List String) (d : Draft) : Draft × List String :=
  uses.foldl (useStep use owner) (d, [])

/-- A plain model, or the used groupings with the source's own properties after them. `fill` adds
the children to an empty model, all of them or only those that come from no grouping. -/
def build (use : Use) (s : Source) (fill : (ownOnly : Bool) → Draft × Plain → Draft × Plain)
    (d : Draft) : Draft × Model :=
  if s.uses.isEmpty then
    let (d, m) := fill false (d, {})
    (d, .plain { m with description := s.description })
  else
    let (d, parents) := useAll use s.owner s.uses d
    let (d, own) := fill true (d, {})
    if parents.isEmpty then (d, .plain { own with description := s.description })
    else
      let inline := if own.isEmpty then [] else [Model.plain own]
      (d, .composed s.description (parents.map .ref ++ inline) parents)

def register (use : Use) (r : Resolved) (s : Source)
    (fill : (ownOnly : Bool) → Draft × Plain → Draft × Plain) (d : Draft) : Draft × String :=
  let (d, name) := nameOf d r
  (d.defineOnce name (build use s fill), name)

mutual

/-- Adds a child to a model, and the definitions it needs to the document. With `ownOnly` a child
that comes from a grouping, or stands in a choice that does, adds nothing. -/
def fill (use : Use) (p : Parent) (ownOnly inherited : Bool) (acc : Draft × Plain) :
    Node Resolved → Draft × Plain
  | .choice r ks => fillCases use p ownOnly (inherited || r.grouping.isSome) acc ks
  | n@(.inner r shape uses cs) =>
    if ownOnly && (inherited || r.grouping.isSome) then acc
    else
      let s := Source.ofHead r shape uses
      let below := fun ownOnly acc => fillAll use s.parent ownOnly false acc cs
      let (d, name) := register use r s below acc.1
      (d, acc.2.addChild p n (some name))
  | n =>
    if ownOnly && (inherited || n.head.grouping.isSome) then acc
    else (acc.1, acc.2.addChild p n none)

def fillAll (use : Use) (p : Parent) (ownOnly inherited : Bool) (acc : Draft × Plain) :
    List (Node Resolved) → Draft × Plain
  | [] => acc
  | n :: ns => fillAll use p ownOnly inherited (fill use p ownOnly inherited acc n) ns

def fillCases (use : Use) (p : Parent) (ownOnly inherited : Bool) (acc : Draft × Plain) :
    Cases Resolved → Draft × Plain
  | [] => acc
  | (_, ns) :: ks =>
    fillCases use p ownOnly inherited (fillAll use p ownOnly inherited acc ns) ks

end

/-- Uses a grouping: defines it unless that is done or under way. `building` holds the groupings
whose definitions are under way and `opens` bounds how many more can be; every opened grouping
joins `building`, so as many as the context has are enough. -/
def useGrouping (c : Context) : (opens : Nat) → (building : List SchemaPath) → Use
  | opens, building, reference, owner, d =>
    match c.grouping? reference owner with
    | none => (d.warn (.missingGrouping reference owner), none)
    | some g =>
      let (d, name) := nameOfGrouping d reference owner
      let target := GroupingRef.read reference owner
      if d.document.hasDefinition name || target.path ∈ building then (d, some name)
      else
        match opens with
        | 0 => (d, some name)
        | opens + 1 =>
          let use := useGrouping c opens (target.path :: building)
          let s : Source := ⟨target.owner, [], g.uses, g.description⟩
          let below := fun ownOnly acc => fillAll use s.parent ownOnly false acc g.children
          let (d, m) := build use s below d
          (d.define name m, some name)

def add (c : Context) (d : Draft) (i : Interior) : Draft :=
  let use := useGrouping c c.groupingCount []
  let s := Source.ofHead i.head i.shape i.uses
  let below := fun ownOnly acc => fillAll use s.parent ownOnly false acc i.children
  (register use i.head s below d).1

def primeGrouping (moduleName : String) (d : Draft) (g : Grouping Resolved) : Draft :=
  Node.primeAll key (nameOfGrouping d g.name moduleName).1 g.children

def prime (d : Draft) (m : Module Resolved) : Draft :=
  m.primeData key (m.groupings.foldl (primeGrouping m.name) d)

end YangApi.Shared
