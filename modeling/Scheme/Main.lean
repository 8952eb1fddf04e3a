import Scheme.CommandLine
/-!
# The program

Gathers what a command can see, runs it and carries out its report. Files are found out by trial:
a run that asks for something unknown is started again with it.
-/

namespace Scheme.CommandLine

partial def readAllInput (stream : IO.FS.Stream) (read : ByteArray) : IO ByteArray := do
  let block ← stream.read 65536
  if block.isEmpty then return read
  readAllInput stream (read ++ block)

/-- What stands at a place, if anything does. -/
def examine (place : Place) : IO (Option Node) := do
  let path := (← IO.currentDir) / place.path
  try
    if ← path.isDir then return some .directory
    match (← path.metadata).type with
    | .file => return some (.file (← IO.FS.readBinFile path))
    | _ => return some (.device none)
  catch _ => return none

/-- Runs until everything that the run asks for is known. -/
partial def settle (run : Invocation → Report) (known : List String) (invocation : Invocation) :
    IO Report := do
  let report := run invocation
  let unknown := report.wanted.filter (!known.contains ·)
  if unknown.isEmpty then return report
  let mut files := invocation.files
  for path in unknown do
    for place in Path.touched invocation.directory path do
      if !files.contains place.path then
        if let some node ← examine place then files := files.insert place.path node
  settle run (known ++ unknown) { invocation with files }

def environmentOf (names : List String) : IO (List (String × String)) :=
  names.filterMapM fun (name : String) => do
    return (← IO.getEnv name).map (name, ·)

end Scheme.CommandLine

open Scheme Scheme.CommandLine in
/-- Under the name `reader` the program echoes data; otherwise it interprets. -/
def main (arguments : List String) : IO UInt32 := do
  let stdin ← IO.getStdin
  let input ← readAllInput stdin .empty
  let environment ← environmentOf ["TERM", "SCHEME_MAX_DEPTH", "SCHEME_STACK_MB"]
  let directory : Place := (Path.names (toString (← IO.currentDir))).reverse
  let invocation : Invocation :=
    { arguments, environment, input := input.toList, directory
      files := Files.plant {} directory .directory }
  let isReader := (toString (← IO.appPath)).endsWith "/reader"
  let report ← settle (if isReader then Invocation.echo else Invocation.interpret) [] invocation
  for (path, content) in report.files do
    IO.FS.writeBinFile path content
  (← IO.getStdout).putStr report.output
  (← IO.getStderr).putStr report.errors
  return UInt32.ofNat report.code
