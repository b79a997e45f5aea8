import StyleVars.Command
import StyleVars.Files.Snapshot
import StyleVars.Json.Reader

/-!
# Running the command

The program reads snapshots of the disk from standard input, one to a line. It reports on the first
one and, unless it is asked to run once, again on every later one.
-/

namespace StyleVars

namespace Command

/-- The next snapshot, or nothing when the input ends. A line that is no snapshot stands for an
empty disk. -/
def nextDisk? (input : IO.FS.Stream) : IO (Option Disk) := do
  let line ← input.getLine
  if line.isEmpty then return none
  return some (((Json.read? line).bind Disk.ofJson?).getD .empty)

/-- Report again on every later snapshot. -/
partial def watch (c : Command) (w : Workspace) (input : IO.FS.Stream) : IO Unit := do
  let some disk ← nextDisk? input | return
  let store := c.project.store disk
  let (w, report, _) := (w.handleEvents store [.headMoved]).analyzeProject store
  IO.print (reportText report)
  c.watch w input

/-- Run the command with its first snapshot, and with the later ones unless it is to run once. -/
def execute (arguments : List String) (input : IO.FS.Stream) : IO UInt8 := do
  let command := ofArguments? arguments
  let disk ← if command.isSome then nextDisk? input else pure none
  let result := run programName arguments (disk.getD .empty)
  IO.print result.output
  result.notices.forM fun notice => IO.eprintln notice.text
  if let some c := command then
    if let .ok w := c.project.load (disk.getD .empty) then
      if !c.once then c.watch w input
  return result.code

end Command

end StyleVars

def main (arguments : List String) : IO UInt32 := do
  return (← StyleVars.Command.execute arguments (← IO.getStdin)).toUInt32
