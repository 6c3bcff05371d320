/-
# MiniC.Main — the command on real files and channels.
-/
import MiniC.Command.Run

namespace MiniC

/-- The code with which the system refuses to read a directory. -/
def directoryCode : UInt32 := 21

/-- What stands at a path on disk. -/
def lookupOnDisk (path : String) : IO Entry := do
  try
    return .file (← IO.FS.readBinFile path).toList
  catch e =>
    match e with
    | .inappropriateType _ code _ => return if code = directoryCode then .directory else .missing
    | _ => return .missing

end MiniC

def main (arguments : List String) : IO UInt32 := do
  let entry ←
    match MiniC.Command.inputPath? arguments with
    | some path => MiniC.lookupOnDisk path
    | none => pure .missing
  let outcome := MiniC.Command.run arguments fun _ => entry
  (← IO.getStdout).write ⟨outcome.stdout.toArray⟩
  (← IO.getStderr).write ⟨outcome.stderr.toArray⟩
  return outcome.exitCode.toUInt32
