import YangApi.Alias
import YangApi.Failure
import YangApi.Restconf

/-! From a context to a document: definitions are named, modules are visited in the order of the
selection, aliases are collapsed, and the tags that operations carry are declared. -/

namespace YangApi

/-- Writes paths for modules, with tags from its rules. -/
structure PathHandler where
  rules : List TagRule := []

def PathHandler.add (h : PathHandler) (r : TagRule) : PathHandler := ⟨h.rules ++ [r]⟩

/-- A run that is ready to start. `rules` remembers the tag rules for a handler that comes later. -/
structure Generator where
  context : Context
  modules : List (Module Resolved)
  config : Config
  handler : PathHandler := {}
  rules : List TagRule := []

namespace Generator

def select (c : Context) : List String → Except Failure (List (Module Resolved))
  | [] => .ok []
  | name :: names => do
    match c.module? name with
    | none => .error (.unknownModule name (c.modules.map Module.name))
    | some m =>
      let ms ← select c names
      return m :: ms.filter fun n => n.name ≠ m.name

def addTags (g : Generator) (r : TagRule) : Generator :=
  { g with handler := g.handler.add r, rules := g.rules ++ [r] }

def addAllTags (g : Generator) (rs : List TagRule) : Generator := rs.foldl addTags g

/-- A new handler gets the rules that are remembered, after its own. -/
def withHandler (g : Generator) (h : PathHandler) : Generator :=
  { g with handler := g.rules.foldl PathHandler.add h }

def ofNames (c : Context) (names : List String) (config : Config) : Except Failure Generator := do
  let modules ← select c names
  if modules.isEmpty then .error .noModules
  else
    let g : Generator := { context := c, modules, config }
    return g.addAllTags (config.tags.map config.tagRule)

def ofAllModules (c : Context) (config : Config) : Except Failure Generator :=
  ofNames c (c.modules.map Module.name) config

def moduleNames (g : Generator) : List String := g.modules.map Module.name

def nonempty? (s : String) : Option String := if s = "" then none else some s

def emptyDocument (g : Generator) : Document :=
  { info := { version := g.config.version }
    host := nonempty? g.config.host
    basePath := nonempty? g.config.basePath
    consumes := g.config.consumes
    produces := g.config.produces }

def visitModule (g : Generator) (d : Draft) (m : Module Resolved) : Draft :=
  (m.visits g.moduleNames g.config.elements).foldl
    (Restconf.visit g.handler.rules g.config.strategy g.context m.name) d

/-- The document before aliases are collapsed. -/
def draft (g : Generator) : Draft :=
  let d : Draft := { document := g.emptyDocument }
  g.modules.foldl g.visitModule (g.modules.foldl g.config.strategy.prime d)

def info (g : Generator) : Info :=
  let title := ",".intercalate g.moduleNames ++ " API"
  { title, description := some (title ++ " generated from yang definitions")
    version := g.config.version }

end Generator

def Document.declaredTags (d : Document) : List Tag :=
  (Text.distinct (d.operations.flatMap Operation.tags)).map fun name => { name }

namespace Generator

def generate (g : Generator) : Except Failure (Document × List Warning) := do
  g.config.validate
  let draft := g.draft
  let (d, _, warnings) :=
    { draft.document with info := g.info }.collapse g.config.collapseAliasChains
  return ({ d with tags := d.declaredTags }, draft.warnings ++ warnings)

end Generator

end YangApi
