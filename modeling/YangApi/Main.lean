import YangApi.CommandLine.Run

/-! The command line on real files. -/

namespace YangApi

def IoFault.ofError : IO.Error → IoFault
  | .noFileOrDirectory .. => .notFound
  | e => .other (toString e)

def folderOf (path : String) : String :=
  String.ofList (path.toList.reverse.dropWhile (· ≠ '/')).reverse

def readFile (path : String) : IO (Except IoFault String) := do
  try
    match String.fromUTF8? (← IO.FS.readBinFile path) with
    | some text => return .ok text
    | none => return .error .notText
  catch e => return .error (.ofError e)

/-- Writes beside the target first, so that no reader sees half of a text. -/
def replaceFile (path text : String) : IO (Except IoFault Unit) := do
  try
    if folderOf path ≠ "" then IO.FS.createDirAll (folderOf path)
    IO.FS.writeFile (path ++ ".part") text
    IO.FS.rename (path ++ ".part") path
    return .ok ()
  catch e => return .error (.ofError e)

def disk : Storage IO := ⟨readFile, replaceFile⟩

end YangApi

open YangApi CommandLine in
def main (args : List String) : IO UInt32 := do
  let report ← run disk args
  IO.print report.output
  for w in report.warnings do IO.eprintln w.message
  if let some summary := report.summary then IO.eprintln summary
  match report.ending with
  | .misuse m => IO.eprintln ("error: " ++ m.message)
  | .failed f => IO.eprintln ("Error: " ++ f.message)
  | .finished => pure ()
  return report.ending.exitCode.toUInt32
