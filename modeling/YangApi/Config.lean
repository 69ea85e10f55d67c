import YangApi.Decode.Source
import YangApi.Definitions.Strategy
import YangApi.Segment
import YangApi.Text
import YangApi.Visit

/-! The configuration of a run. -/

namespace YangApi

inductive Format where
  | yaml
  | json
  deriving DecidableEq

def Format.all : List Format := [.yaml, .json]

def Format.name : Format → String
  | .yaml => "yaml"
  | .json => "json"

inductive TagStrategy where
  | module
  | segment
  deriving DecidableEq

def TagStrategy.all : List TagStrategy := [.module, .segment]

def TagStrategy.name : TagStrategy → String
  | .module => "module"
  | .segment => "segment"

def wordsOf {α : Type} (name : α → String) (all : List α) : List (String × α) :=
  all.map fun a => (name a, a)

def readWord {α : Type} (name : α → String) (all : List α) (s : String) : Option α :=
  all.find? fun a => name a = s

structure Config where
  host : String := "localhost:8080"
  basePath : String := "/restconf"
  consumes : List String := ["application/json"]
  produces : List String := ["application/json"]
  version : String := "1.0.0-SNAPSHOT"
  format : Format := .yaml
  elements : List ElementKind := [.data, .rpc]
  strategy : Strategy := .shared
  tags : List TagStrategy := []
  segmentTagDepth : Nat := 1
  collapseAliasChains : Bool := false
  deriving DecidableEq

inductive ConfigFault where
  | basePath (path : String)
  | segmentTagDepth
  | noElements
  deriving DecidableEq

namespace Config

/-- The first fault: elements before base path before tag depth. -/
def fault? (c : Config) : Option ConfigFault :=
  if c.elements.isEmpty then some .noElements
  else if c.basePath ≠ "" && !c.basePath.startsWith "/" then some (.basePath c.basePath)
  else if c.segmentTagDepth = 0 then some .segmentTagDepth
  else none

def includes (c : Config) (kind : ElementKind) : Bool := kind ∈ c.elements

def withMediaType (c : Config) (type : String) : Config :=
  { c with consumes := [type], produces := [type] }

def withTag (c : Config) (t : TagStrategy) : Config := { c with tags := Text.pushNew c.tags t }

def tagRule (c : Config) : TagStrategy → TagRule
  | .module => .module
  | .segment => .ofDepth c.segmentTagDepth

def fieldNames : List String :=
  ["host", "base-path", "consumes", "produces", "version", "format", "elements", "strategy", "tags",
    "segment-tag-depth", "collapse-alias-chains"]

variable {σ : Type} [Source σ]

def formatOf : σ → Decoded Format := Source.oneOf (wordsOf Format.name Format.all)

def elementsOf : σ → Decoded (List ElementKind) :=
  Source.list (Source.oneOf (wordsOf ElementKind.name ElementKind.all))

def strategyOf : σ → Decoded Strategy := Source.oneOf (wordsOf Strategy.name Strategy.all)

def tagOf : σ → Decoded TagStrategy := Source.oneOf (wordsOf TagStrategy.name TagStrategy.all)

/-- A field that is left out keeps its default. -/
def decode (s : σ) : Decoded Config := do
  let fs : Fields σ ← Source.fields fieldNames s
  let c : Config := {}
  return {
    host := ← fs.optional "host" c.host Source.text
    basePath := ← fs.optional "base-path" c.basePath Source.text
    consumes := ← fs.optional "consumes" c.consumes Source.texts
    produces := ← fs.optional "produces" c.produces Source.texts
    version := ← fs.optional "version" c.version Source.text
    format := ← fs.optional "format" c.format formatOf
    elements := ← fs.optional "elements" c.elements elementsOf
    strategy := ← fs.optional "strategy" c.strategy strategyOf
    tags := ← fs.optional "tags" c.tags (Source.list tagOf)
    segmentTagDepth := ← fs.optional "segment-tag-depth" c.segmentTagDepth Source.count
    collapseAliasChains :=
      ← fs.optional "collapse-alias-chains" c.collapseAliasChains Source.bool }

def value (c : Config) : Value :=
  .record [("host", .text c.host), ("base-path", .text c.basePath),
    ("consumes", Value.texts c.consumes), ("produces", Value.texts c.produces),
    ("version", .text c.version), ("format", .text c.format.name),
    ("elements", Value.texts (c.elements.map ElementKind.name)),
    ("strategy", .text c.strategy.name), ("tags", Value.texts (c.tags.map TagStrategy.name)),
    ("segment-tag-depth", .number c.segmentTagDepth),
    ("collapse-alias-chains", .bool c.collapseAliasChains)]

end Config

end YangApi
