import YangApi.CommandLine.Request
import YangApi.Generator
import YangApi.Storage.Basic

/-! One run of the command line, on any storage. -/

namespace YangApi.CommandLine

def versionLine : String := "swagger-gen 0.1.0\n"

def usage : String :=
  "Usage: swagger-gen --input <FILE> [OPTIONS]\n\nOptions:\n" ++
  "  -i, --input <FILE>             schema tree to read (.json, .yaml or .yml)\n" ++
  "  -m, --module <NAME>            module to generate for; repeat for several\n" ++
  "  -o, --output <FILE>            file to write instead of standard output\n" ++
  "  -c, --config <FILE>            configuration\n" ++
  "  -f, --format <FORMAT>          yaml or json\n" ++
  "      --elements <KINDS>         data and rpc, separated by commas\n" ++
  "      --strategy <STRATEGY>      optimizing or unpacking\n" ++
  "      --tag <STRATEGY>           module or segment; repeat for several\n" ++
  "      --host <HOST>              host in the document\n" ++
  "      --base-path <PATH>         base path in the document\n" ++
  "      --api-version <VERSION>    version in the document\n" ++
  "      --collapse-alias-chains    follow aliases to their end\n" ++
  "  -v, --verbose                  more messages; repeat for more\n" ++
  "  -h, --help                     this text\n" ++
  "  -V, --version                  the version\n"

inductive Ending where
  | misuse (m : Misuse)
  | failed (f : Failure)
  | finished

/-- What a run says: `output` on standard output, `summary` about a file that it wrote, `warnings`
if it was asked to be verbose. -/
structure Report where
  ending : Ending
  output : String := ""
  summary : Option String := none
  warnings : List Warning := []

def Ending.exitCode : Ending → Nat
  | .finished => 0
  | .failed _ => 1
  | .misuse _ => 2

def summaryOf (path : String) (d : Document) : String :=
  "Generated " ++ path ++ " (" ++ toString d.paths.size ++ " paths, " ++
    toString d.definitionCount ++ " definitions)"

/-- The document for an invocation, whose modules are all of the context unless some are named. -/
def document (i : Invocation) (c : Config) (context : Context) :
    Except Failure (Document × List Warning) := do
  let g ← if i.modules.isEmpty then Generator.ofAllModules context c
    else Generator.ofNames context i.modules c
  g.generate

variable {m : Type → Type} [Monad m]

/-- Configuration before input; nothing is written unless there is a document. -/
def generate (s : Storage m) (input : String) (i : Invocation) : ExceptT Failure m Report := do
  let base ← match i.config with
    | some path => ExceptT.mk (s.loadConfig path)
    | none => pure {}
  let config := i.configure base
  let context ← ExceptT.mk (s.loadContext input)
  let (d, warnings) ← ExceptT.mk (pure (document i config context))
  let warnings := if i.verbosity = 0 then [] else warnings
  match i.output with
  | some path =>
    ExceptT.mk (s.writeDocument d config.format path)
    return { ending := .finished, summary := some (summaryOf path d), warnings }
  | none => return { ending := .finished, output := d.render config.format, warnings }

def run (s : Storage m) (args : List String) : m Report := do
  match read args with
  | .error misuse => return { ending := .misuse misuse }
  | .ok .version => return { ending := .finished, output := versionLine }
  | .ok .help => return { ending := .finished, output := usage }
  | .ok (.run input i) =>
    match ← (generate s input i).run with
    | .ok report => return report
    | .error f => return { ending := .failed f }

end YangApi.CommandLine
