/-! Paths of names in a schema tree, outermost name first. -/

namespace YangApi

structure SchemaPath where
  names : List String
  deriving DecidableEq, Inhabited

namespace SchemaPath

def root : SchemaPath := ⟨[]⟩

def child (p : SchemaPath) (name : String) : SchemaPath := ⟨p.names ++ [name]⟩

/-- The path without its last name; the empty path is its own parent. -/
def parent (p : SchemaPath) : SchemaPath := ⟨p.names.dropLast⟩

def last? (p : SchemaPath) : Option String := p.names.getLast?

def text (p : SchemaPath) : String := "/".intercalate p.names

/-- Compares name by name, names by code point; a path comes before its extensions. -/
def compareNames : List String → List String → Ordering
  | [], [] => .eq
  | [], _ :: _ => .lt
  | _ :: _, [] => .gt
  | a :: as, b :: bs => if a < b then .lt else if a = b then compareNames as bs else .gt

def compare (p q : SchemaPath) : Ordering := compareNames p.names q.names

theorem parent_child (p : SchemaPath) (name : String) : (p.child name).parent = p := by
  simp [parent, child]

end SchemaPath

structure GroupingRef where
  owner : String
  name : String
  deriving DecidableEq

namespace GroupingRef

/-- A reference is `module:name`, split at its first colon, or the name of a grouping of the
module in which it is read. -/
def read (reference currentModule : String) : GroupingRef :=
  match reference.toList.span (· ≠ ':') with
  | (owner, _ :: name) => ⟨String.ofList owner, String.ofList name⟩
  | (_, []) => ⟨currentModule, reference⟩

def path (g : GroupingRef) : SchemaPath := ⟨[g.owner, "grouping", g.name]⟩

end GroupingRef

end YangApi
