import YangApi.Config
import YangApi.Schema.Context

/-! Everything that ends a run. -/

namespace YangApi

inductive IoFault where
  | notFound
  | busy
  | exists
  | notDirectory
  | isDirectory
  | invalid
  | nameTooLong
  | badName
  | notText
  | other (message : String)
  deriving DecidableEq

def IoFault.message : IoFault → String
  | .notFound => "No such file or directory (os error 2)"
  | .busy => "Device or resource busy (os error 16)"
  | .exists => "File exists (os error 17)"
  | .notDirectory => "Not a directory (os error 20)"
  | .isDirectory => "Is a directory (os error 21)"
  | .invalid => "Invalid argument (os error 22)"
  | .nameTooLong => "File name too long (os error 36)"
  | .badName => "file name contained an unexpected NUL byte"
  | .notText => "stream did not contain valid UTF-8"
  | .other message => message

inductive ParseFault where
  | malformed
  | decode (e : DecodeError)
  | schema (e : SchemaError)
  deriving DecidableEq

def ParseFault.message : ParseFault → String
  | .malformed => "malformed text"
  | .decode e => e.message
  | .schema e => e.message

inductive Failure where
  | noModules
  | unknownModule (name : String) (available : List String)
  | noElements
  | schema (e : SchemaError)
  | readInput (path : String) (e : IoFault)
  | parseInput (path : String) (e : ParseFault)
  | unsupportedInput (path : String)
  | writeOutput (path : String) (e : IoFault)
  | invalidConfig (reason : String)
  deriving DecidableEq

def Failure.message : Failure → String
  | .noModules => "No modules selected for generation"
  | .unknownModule name available =>
    "Unknown module '" ++ name ++ "'. Available modules: " ++ ", ".intercalate available
  | .noElements => "No element kinds configured; expected at least one of: data, rpc"
  | .schema e => "Invalid schema tree: " ++ e.message
  | .readInput path e => "Failed to read input file '" ++ path ++ "': " ++ e.message
  | .parseInput path e => "Failed to parse input file '" ++ path ++ "': " ++ e.message
  | .unsupportedInput path =>
    "Unsupported input format '" ++ path ++ "'; expected .json, .yaml or .yml"
  | .writeOutput path e => "Failed to write output '" ++ path ++ "': " ++ e.message
  | .invalidConfig reason => "Invalid configuration: " ++ reason

def ConfigFault.failure : ConfigFault → Failure
  | .noElements => .noElements
  | .basePath path => .invalidConfig ("base path '" ++ path ++ "' must start with '/'")
  | .segmentTagDepth => .invalidConfig "segment tag depth must be at least 1"

def Config.validate (c : Config) : Except Failure Unit :=
  match c.fault? with
  | some f => .error f.failure
  | none => .ok ()

end YangApi
