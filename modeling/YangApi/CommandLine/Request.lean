import YangApi.Config

/-! What a command line asks for. Arguments are read from left to right, and the first one that is
wrong, or asks for the version or for help, decides. -/

namespace YangApi.CommandLine

/-- The arguments of a run. A setting that is absent leaves the configuration as it is. -/
structure Invocation where
  input : Option String := none
  modules : List String := []
  output : Option String := none
  config : Option String := none
  format : Option Format := none
  elements : Option (List ElementKind) := none
  strategy : Option Strategy := none
  tags : List TagStrategy := []
  host : Option String := none
  basePath : Option String := none
  version : Option String := none
  collapseAliasChains : Bool := false
  verbosity : Nat := 0

def Invocation.configure (i : Invocation) (c : Config) : Config :=
  let c := { c with
    format := i.format.getD c.format
    elements := i.elements.getD c.elements
    strategy := i.strategy.getD c.strategy
    host := i.host.getD c.host
    basePath := i.basePath.getD c.basePath
    version := i.version.getD c.version
    collapseAliasChains := i.collapseAliasChains || c.collapseAliasChains }
  i.tags.foldl Config.withTag c

inductive Request where
  | run (input : String) (i : Invocation)
  | version
  | help

inductive Misuse where
  | unexpected (argument : String)
  | unknownOption (name : String)
  | missingValue (option : String)
  | surplusValue (option : String)
  | badValue (option value : String)
  | repeated (option : String)
  | missingInput
  deriving DecidableEq

def Misuse.message : Misuse → String
  | .unexpected argument => "unexpected argument '" ++ argument ++ "'"
  | .unknownOption name => "unknown option '" ++ name ++ "'"
  | .missingValue option => "option '" ++ option ++ "' needs a value"
  | .surplusValue option => "option '" ++ option ++ "' takes no value"
  | .badValue option value => "option '" ++ option ++ "' cannot be '" ++ value ++ "'"
  | .repeated option => "option '" ++ option ++ "' is given twice"
  | .missingInput => "option '--input' is required"

inductive Setting where
  | input
  | module
  | output
  | config
  | format
  | elements
  | strategy
  | tag
  | host
  | basePath
  | apiVersion
  deriving DecidableEq

inductive Switch where
  | collapseAliasChains
  | verbose
  | version
  | help
  deriving DecidableEq

namespace Setting

def all : List Setting :=
  [.input, .module, .output, .config, .format, .elements, .strategy, .tag, .host, .basePath,
    .apiVersion]

def name : Setting → String
  | .input => "--input"
  | .module => "--module"
  | .output => "--output"
  | .config => "--config"
  | .format => "--format"
  | .elements => "--elements"
  | .strategy => "--strategy"
  | .tag => "--tag"
  | .host => "--host"
  | .basePath => "--base-path"
  | .apiVersion => "--api-version"

def letter? : Setting → Option Char
  | .input => some 'i'
  | .module => some 'm'
  | .output => some 'o'
  | .config => some 'c'
  | .format => some 'f'
  | _ => none

def once {α : Type} (s : Setting) (old : Option α) (a : α) : Except Misuse (Option α) :=
  if old.isSome then .error (.repeated s.name) else .ok (some a)

/-- A path has at least one character. -/
def path (s : Setting) (value : String) : Except Misuse String :=
  if value = "" then .error (.badValue s.name value) else .ok value

def word {α : Type} (s : Setting) (name : α → String) (all : List α) (value : String) :
    Except Misuse α :=
  match readWord name all value with
  | some a => .ok a
  | none => .error (.badValue s.name value)

def apply (s : Setting) (value : String) (i : Invocation) : Except Misuse Invocation := do
  match s with
  | .input => return { i with input := ← s.once i.input (← s.path value) }
  | .module => return { i with modules := i.modules ++ [value] }
  | .output => return { i with output := ← s.once i.output (← s.path value) }
  | .config => return { i with config := ← s.once i.config (← s.path value) }
  | .format => return { i with format := ← s.once i.format (← s.word Format.name Format.all value) }
  | .elements =>
    let kinds ← (value.splitOn ",").mapM (s.word ElementKind.name ElementKind.all)
    return { i with elements := some (i.elements.getD [] ++ kinds) }
  | .strategy =>
    return { i with strategy := ← s.once i.strategy (← s.word Strategy.name Strategy.all value) }
  | .tag =>
    return { i with tags := i.tags ++ [← s.word TagStrategy.name TagStrategy.all value] }
  | .host => return { i with host := ← s.once i.host value }
  | .basePath => return { i with basePath := ← s.once i.basePath value }
  | .apiVersion => return { i with version := ← s.once i.version value }

end Setting

namespace Switch

def all : List Switch := [.collapseAliasChains, .verbose, .version, .help]

def name : Switch → String
  | .collapseAliasChains => "--collapse-alias-chains"
  | .verbose => "--verbose"
  | .version => "--version"
  | .help => "--help"

def letter? : Switch → Option Char
  | .collapseAliasChains => none
  | .verbose => some 'v'
  | .version => some 'V'
  | .help => some 'h'

end Switch

inductive Progress where
  | going (i : Invocation)
  | done (r : Request)

def Switch.apply (s : Switch) (i : Invocation) : Except Misuse Progress :=
  match s with
  | .collapseAliasChains =>
    if i.collapseAliasChains then .error (.repeated s.name)
    else .ok (.going { i with collapseAliasChains := true })
  | .verbose => .ok (.going { i with verbosity := i.verbosity + 1 })
  | .version => .ok (.done .version)
  | .help => .ok (.done .help)

/-- What a cluster of letters leaves: progress, or a setting whose value is the next argument. -/
inductive Cluster where
  | settled (p : Progress)
  | open (s : Setting) (i : Invocation)

/-- Letters of switches, and at most one of a setting, which takes the rest as its value; an equals
sign in front of that is dropped. -/
def cluster (i : Invocation) : List Char → Except Misuse Cluster
  | [] => .ok (.settled (.going i))
  | c :: cs =>
    match Setting.all.find? (·.letter? = some c) with
    | some s =>
      match cs with
      | [] => .ok (.open s i)
      | '=' :: value => do return .settled (.going (← s.apply (String.ofList value) i))
      | value => do return .settled (.going (← s.apply (String.ofList value) i))
    | none =>
      match Switch.all.find? (·.letter? = some c) with
      | some s => do
        match ← s.apply i with
        | .going i => cluster i cs
        | .done r => return .settled (.done r)
      | none => .error (.unknownOption ("-" ++ c.toString))

def isOption (a : String) : Bool := a.startsWith "-" && a ≠ "-"

def splitLong (a : String) : String × Option String :=
  match a.toList.span (· ≠ '=') with
  | (name, _ :: value) => (String.ofList name, some (String.ofList value))
  | (_, []) => (a, none)

def finish (i : Invocation) : Except Misuse Request :=
  match i.input with
  | some input => .ok (.run input i)
  | none => .error .missingInput

def takeNext (s : Setting) (i : Invocation) : List String → Except Misuse Invocation
  | [] => .error (.missingValue s.name)
  | v :: _ => if isOption v then .error (.missingValue s.name) else s.apply v i

/-- Reads arguments; `skip` says that the first one was taken as a value already. -/
def readFrom : (skip : Bool) → Invocation → List String → Except Misuse Request
  | _, i, [] => finish i
  | true, i, _ :: rest => readFrom false i rest
  | false, i, a :: rest =>
    if a = "--" then
      match rest with
      | [] => finish i
      | b :: _ => .error (.unexpected b)
    else if a.startsWith "--" then
      let (name, value) := splitLong a
      match Setting.all.find? (·.name = name), value with
      | some s, some v => do readFrom false (← s.apply v i) rest
      | some s, none => do readFrom true (← takeNext s i rest) rest
      | none, _ =>
        match Switch.all.find? (·.name = name), value with
        | some s, none => do
          match ← s.apply i with
          | .going i => readFrom false i rest
          | .done r => return r
        | some s, some _ => .error (.surplusValue s.name)
        | none, _ => .error (.unknownOption name)
    else if isOption a then do
      match ← cluster i (a.toList.drop 1) with
      | .settled (.going i) => readFrom false i rest
      | .settled (.done r) => return r
      | .open s i => readFrom true (← takeNext s i rest) rest
    else .error (.unexpected a)

def read (args : List String) : Except Misuse Request := readFrom false {} args

end YangApi.CommandLine
