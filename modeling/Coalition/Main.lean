import Coalition.Command

-- The command line: collects what a command finds around it, runs it, and prints what it says.

set_option autoImplicit false

namespace Coalition.Main

def environment : IO Environment :=
  Settings.names.filterMapM fun name => do return (← IO.getEnv name).map fun value => (name, value)

/-- What is at a path: what can be opened but not read is a folder. -/
def entry? (path : String) : IO (Option Entry) := do
  try return some (.text (← IO.FS.readFile path))
  catch _ =>
    try
      let _ ← IO.FS.Handle.mk path .read
      return some .folder
    catch _ => return none

def files (paths : List String) : IO Files := do
  let folders := paths.map fun path => "/".intercalate (path.splitOn "/").dropLast
  (paths ++ folders).foldlM (fun found path => do
    match ← entry? path with
    | some entry => return found.add path entry
    | none => return found) {}

partial def readInput (stream : IO.FS.Stream) (sofar : String) : IO String := do
  let line ← stream.getLine
  if line.isEmpty then return sofar else readInput stream (sofar ++ line)

def runOnce (place : Surroundings) (arguments : List String) : IO UInt32 := do
  let started ← IO.monoMsNow
  let transcript ← IO.lazyPure fun _ => Coalition.run place arguments
  let code := UInt32.ofNat transcript.exitCode
  let elapsed := (← IO.monoMsNow) - started
  IO.print (transcript.output (Transcript.seconds elapsed))
  (← IO.getStdout).flush
  if let some failure := transcript.failure then
    IO.eprintln ("Error: " ++ (failure.message?.getD "the model cannot be read"))
  return code

/-- Run a command line again each time the model file has changed. -/
partial def watch (place : Surroundings) (arguments : List String) (model : String)
    (last : Option String) : IO UInt32 := do
  IO.sleep 500
  let found ← files [environmentFile, model]
  let now := found.text? model
  if now != last && now.isSome then
    let code ← runOnce { place with files := found } arguments
    if code != 0 then return code
  watch place arguments model now

end Coalition.Main

open Coalition in
def main (arguments : List String) : IO UInt32 := do
  let order := (Order.read arguments).toOption.getD .explain
  let files ← Main.files (environmentFile :: order.file?.toList)
  let input ← if order.readsInput then Main.readInput (← IO.getStdin) "" else pure ""
  let place : Surroundings := { environment := ← Main.environment, files, input }
  let code ← Main.runOnce place arguments
  match order.file? with
  | some model =>
      if order.repeats && code == 0 then Main.watch place arguments model (files.text? model)
      else return code
  | none => return code
