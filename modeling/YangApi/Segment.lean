import YangApi.Text

/-! Chains of path segments below a module. Each level knows its parameters, one per key, and no
parameter stands twice on a chain. Tags are made from the segment that an operation is for. -/

namespace YangApi

structure Level where
  name : String
  owner : String
  readOnly : Bool
  keys : List String
  params : List String
  deriving DecidableEq

/-- A chain of levels, outermost first, under the module that is traversed. -/
structure Segment where
  root : String
  levels : List Level
  deriving DecidableEq

namespace Segment

def ofModule (name : String) : Segment := ⟨name, []⟩

/-- The parameter of a key: the key, else qualified by its segment, else numbered as well. -/
def uniqueParam (segment key : String) (taken : List String) : String :=
  let qualified := segment ++ "-" ++ key
  if key ∉ taken then key
  else if qualified ∉ taken then qualified
  else Text.firstNumbered (qualified ++ "-") taken

def localParams (segment : String) (taken : List String) : List String → List String
  | [] => []
  | k :: ks =>
    let param := uniqueParam segment k taken
    param :: localParams segment (taken ++ [param]) ks

def params (s : Segment) : List String := s.levels.flatMap Level.params

def last? (s : Segment) : Option Level := s.levels.getLast?

def isReadOnly (s : Segment) : Bool := s.last?.any Level.readOnly

/-- A level below `s`; what is below a read-only level is read-only. -/
def push (s : Segment) (name owner : String) (readOnly : Bool) (keys : List String) : Segment :=
  let level : Level :=
    { name, owner, readOnly := readOnly || s.isReadOnly, keys
      params := localParams name s.params keys }
  { s with levels := s.levels ++ [level] }

def isRoot (s : Segment) : Bool := s.levels.isEmpty

def pop? (s : Segment) : Option Segment :=
  if s.isRoot then none else some { s with levels := s.levels.dropLast }

def names (s : Segment) : List String := s.levels.map Level.name

def depth (s : Segment) : Nat := s.levels.length

def name (s : Segment) : String := (s.last?.map Level.name).getD ""

def owner (s : Segment) : String := (s.last?.map Level.owner).getD s.root

def keys (s : Segment) : List String := (s.last?.map Level.keys).getD []

def ownParams (s : Segment) : List String := (s.last?.map Level.params).getD []

def isList (s : Segment) : Bool := !s.keys.isEmpty

end Segment

/-- A rule that makes tags. Any function of the segment will do; two are at hand. -/
structure TagRule where
  tags : Segment → List String

namespace TagRule

def module : TagRule := ⟨fun s => if s.owner = "" then [] else [s.owner]⟩

/-- The names of the outermost levels, of at least one however small the depth. -/
def ofDepth (depth : Nat) : TagRule :=
  ⟨fun s =>
    let names := s.names.take (max depth 1)
    if names.isEmpty then [] else [".".intercalate names]⟩

def collect (rules : List TagRule) (s : Segment) : List String :=
  Text.distinct (rules.flatMap fun r => r.tags s)

end TagRule

end YangApi
