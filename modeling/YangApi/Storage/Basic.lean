import YangApi.Document.Encode
import YangApi.Failure
import YangApi.Json.Source
import YangApi.Json.Writer
import YangApi.Schema.Decode.Module
import YangApi.Yaml.Source
import YangApi.Yaml.Writer

/-! Reading schemas and configurations from storage, and writing documents to it. File names are taken
as they are written: names between slashes, the last one with an extension. -/

namespace YangApi.Location

/-- Everything between slashes. A path that starts with a slash has an empty part in front of it. -/
def parts (path : String) : List String := path.splitOn "/"

def isIdle (part : String) : Bool := part = "" || part = "."

def names (path : String) : List String := (parts path).filter fun n => !isIdle n

def folder (path : String) : String :=
  let around := (((parts path).reverse.dropWhile isIdle).drop 1).dropWhile isIdle
  if around.isEmpty then "." else "/".intercalate around.reverse

/-- What is behind the last dot of a name, unless the name has no other start. -/
def extensionOf? (name : String) : Option String :=
  let after := name.toList.reverse.takeWhile (· ≠ '.')
  let before := name.toList.reverse.drop (after.length + 1)
  if name = ".." || before.isEmpty then none else some (String.ofList after.reverse)

def extension? (path : String) : Option String :=
  ((names path).getLast?.bind extensionOf?).map String.toLower

inductive Language where
  | json
  | yaml
  deriving DecidableEq

/-- What a schema file is written in; there is no default. -/
def schemaLanguage? (path : String) : Option Language :=
  match extension? path with
  | some "json" => some .json
  | some "yaml" => some .yaml
  | some "yml" => some .yaml
  | _ => none

def configLanguage (path : String) : Language :=
  if extension? path = some "json" then .json else .yaml

end YangApi.Location

namespace YangApi

/-- A place for files. `replace` puts a whole text in place of what is there, or nothing. -/
structure Storage (m : Type → Type) where
  read : (path : String) → m (Except IoFault String)
  replace : (path text : String) → m (Except IoFault Unit)

def ParseFault.lift {α : Type} : Except DecodeError α → Except ParseFault α
  | .ok a => .ok a
  | .error e => .error (.decode e)

/-- What a JSON text says, and what `finish` makes of it. Only then the text must end. -/
def Json.parse {α β : Type} (decode : Json.Place → Decoded α) (finish : α → Except ParseFault β)
    (text : String) : Except ParseFault β := do
  let some (n, rest) := Json.Node.read? text.toList | .error .malformed
  let b ← finish (← ParseFault.lift ((decode (.top n)).eval 0))
  if (Json.skipBlanks rest).isEmpty then return b else .error .malformed

def Yaml.parse {α β : Type} (decode : Yaml.Place → Decoded α) (finish : α → Except ParseFault β)
    (text : String) : Except ParseFault β := do
  let some g := Yaml.Graph.read? text | .error .malformed
  finish (← ParseFault.lift ((decode (.root g)).eval (Yaml.Place.references g)))

def Context.check (ms : List (Module Declared)) : Except ParseFault Context :=
  match Context.resolve ms with
  | .ok c => .ok c
  | .error e => .error (.schema e)

def Context.parse : Location.Language → String → Except ParseFault Context
  | .json => Json.parse Module.decodeAll Context.check
  | .yaml => Yaml.parse Module.decodeAll Context.check

def Config.parse : Location.Language → String → Except ParseFault Config
  | .json => Json.parse Config.decode .ok
  | .yaml => Yaml.parse Config.decode .ok

def Document.render (d : Document) : Format → String
  | .json => Json.write d.value
  | .yaml => Yaml.write d.value

namespace Storage

variable {m : Type → Type} [Monad m]

def load {α : Type} (s : Storage m) (path : String) (parse : String → Except ParseFault α) :
    m (Except Failure α) := do
  match ← s.read path with
  | .error e => return .error (.readInput path e)
  | .ok text =>
    match parse text with
    | .error e => return .error (.parseInput path e)
    | .ok a => return .ok a

/-- A file with an unknown extension is not even opened. -/
def loadContext (s : Storage m) (path : String) : m (Except Failure Context) :=
  match Location.schemaLanguage? path with
  | none => return .error (.unsupportedInput path)
  | some language => s.load path (Context.parse language)

def loadConfig (s : Storage m) (path : String) : m (Except Failure Config) :=
  s.load path (Config.parse (Location.configLanguage path))

def writeDocument (s : Storage m) (d : Document) (format : Format) (path : String) :
    m (Except Failure Unit) := do
  match ← s.replace path (d.render format) with
  | .error e => return .error (.writeOutput path e)
  | .ok () => return .ok ()

end Storage

/-- A stream that takes `room` bytes, and then refuses more, or to be flushed. -/
structure Sink where
  room : Nat
  flushes : Bool

namespace Sink

def write (k : Sink) (text : String) : Nat × Except IoFault Unit :=
  if k.room < text.utf8ByteSize then (k.room, .error (.other "no room"))
  else (text.utf8ByteSize, if k.flushes then .ok () else .error (.other "no flush"))

def writeDocument (k : Sink) (d : Document) (format : Format) : Nat × Except Failure Unit :=
  match k.write (d.render format) with
  | (n, .ok ()) => (n, .ok ())
  | (n, .error e) => (n, .error (.writeOutput "<writer>" e))

end Sink

end YangApi
