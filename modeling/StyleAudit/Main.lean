import Std.Time.Format
import Std.Time.Zoned
import StyleAudit.CommandLine.Answer

/-!
# The program

A run reads the files of the working directory into a tree, looks at the clock and shows the
answer to the words of its command line.  Paths that lead out of the working directory lead
nowhere, and so do links.
-/

namespace StyleAudit.CommandLine

/-- The file or directory that a directory entry is, with everything in it.  What cannot be
read is not there. -/
partial def loadEntry (entry : IO.FS.DirEntry) : IO (Option Node) := do
  try
    match (← entry.path.symlinkMetadata).type with
    | .file => return some (.file (← IO.FS.readBinFile entry.path).toList)
    | .dir =>
      let mut entries := []
      for inner in ← entry.path.readDir do
        if let some node ← loadEntry inner then
          entries := Node.setEntry inner.fileName.toList node entries
      return some (.folder entries)
    | _ => return none
  catch _ => return none

/-- The working directory with everything in it. -/
def loadWorkingDirectory : IO Node := do
  return (← loadEntry { root := ".", fileName := "." }).getD (.folder [])

/-- The present moment. -/
def presentMoment : IO Moment := do
  let now ← Std.Time.Timestamp.now
  let written := (Std.Time.DateTime.ofTimestampWithZone now .UTC).format
    "uuuu-MM-dd'T'HH:mm:ss.SSSSSSSSSxxx"
  return ⟨written⟩

end StyleAudit.CommandLine

open StyleAudit.CommandLine in
/-- Runs the program. -/
def main (args : List String) : IO UInt32 := do
  let started ← IO.monoMsNow
  let tree ← loadWorkingDirectory
  let clock : Clock := { now := ← presentMoment, elapsed := (← IO.monoMsNow) - started }
  let a := answer tree clock (args.map String.toList)
  IO.print a.output
  IO.eprint a.complaint
  return UInt32.ofNat a.exitCode
