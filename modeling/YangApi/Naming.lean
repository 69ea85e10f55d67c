import YangApi.Schema.Path
import YangApi.Text

/-! Names of definitions. They are in camel case: the runs of ASCII letters and digits of a text,
each with its first letter in upper case, nothing between them. A path gets one name for good, no two
paths share one: a name that is taken is first qualified by names of the path, innermost first, and
then numbered. -/

namespace YangApi

/-- `start` says that the next letter or digit begins a run. -/
def camelChars : (start : Bool) → List Char → List Char
  | _, [] => []
  | start, c :: cs =>
    if c.isAlphanum then (if start then c.toUpper else c) :: camelChars false cs
    else camelChars true cs

def camelCase (s : String) : String := String.ofList (camelChars true s.toList)

/-- The names that can qualify a definition at `p`: those above it, without the word that marks the
path of a grouping. -/
def SchemaPath.qualifiers (p : SchemaPath) : List String :=
  match p.names.dropLast with
  | owner :: "grouping" :: names => owner :: names
  | names => names

/-- The names given so far, latest first. -/
structure Registry where
  assigned : List (SchemaPath × String)

namespace Registry

def empty : Registry := ⟨[]⟩

def get? (r : Registry) (key : SchemaPath) : Option String :=
  (r.assigned.find? (·.1 = key)).map Prod.snd

def taken (r : Registry) : List String := r.assigned.map Prod.snd

/-- `base` and its qualified forms, each with one more of `outer` in front. -/
def candidates (base : String) : (outer : List String) → List String
  | [] => [base]
  | q :: qs => base :: candidates (camelCase q ++ base) qs

/-- The first candidate that is free, or the last one with a number. -/
def choose (taken : List String) (base : String) (outer : List String) : String :=
  let names := candidates base outer
  match names.find? fun s => s ∉ taken with
  | some s => s
  | none => Text.firstNumbered (names.getLastD base) taken

/-- The name of `key`. A new key gets the first free one made from `base` and `qualifiers`, given
outermost first. -/
def assign (r : Registry) (key : SchemaPath) (base : String) (qualifiers : List String) :
    Registry × String :=
  match r.get? key with
  | some name => (r, name)
  | none =>
    let name := choose r.taken base qualifiers.reverse
    (⟨(key, name) :: r.assigned⟩, name)

end Registry

end YangApi
