import PageTemplate.CommandLine

/-!
The program. It runs the arguments among the files read so far, and again whenever a run asks for files
that have not been read.
-/

namespace PageTemplate

def lookAt (path : Bytes) : IO (Except FileFault Bytes) := do
  match Bytes.toString? path with
  | none => return .error .missing
  | some name =>
    try
      return .ok (← IO.FS.readBinFile name).toList
    catch
      | .noFileOrDirectory .. => return .error .missing
      | .permissionDenied .. => return .error .denied
      | .inappropriateType _ 20 _ => return .error .obstructed
      | _ => return .error .directory

/-- Runs the arguments until every file that was asked for has been read. -/
partial def runArgs (home stamp : Bytes) (args : List Bytes) (known : Assoc (Except FileFault Bytes)) : IO Outcome := do
  let outcome := (Invocation.ofArgs args).run home stamp known.get?
  if outcome.wanted.isEmpty then return outcome
  let mut known := known
  for path in outcome.wanted do
    known := known.insert path (← lookAt path)
  runArgs home stamp args known

end PageTemplate

open PageTemplate in
def main (args : List String) : IO UInt32 := do
  let home ← IO.currentDir
  let now ← IO.monoMsNow
  let outcome ← runArgs (utf8 home.toString) (Bytes.ofNat now) (args.map utf8) []
  (← IO.getStdout).write outcome.stdout.toByteArray
  (← IO.getStderr).write outcome.stderr.toByteArray
  return outcome.exit.toUInt32
