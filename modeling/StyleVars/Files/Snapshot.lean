import StyleVars.Files.Disk
import StyleVars.Json.Basic

/-!
# Snapshots

A snapshot describes a disk as a JSON array of entries in the order in which they are created. Each
entry has a `path`, and at most one of `text` for a file, `bytes` for a file given byte by byte, and
`link` for the target of a link; an entry with none of them is a directory.
-/

namespace StyleVars

namespace DiskNode

/-- The file with the given bytes. -/
def ofBytes (bytes : List Nat) : DiskNode :=
  .file (String.fromUTF8? ⟨(bytes.map Nat.toUInt8).toArray⟩)

def ofJson? (j : Json) : Option DiskNode :=
  match j.field? "text", j.field? "bytes", j.field? "link" with
  | some text, _, _ => text.string?.map fun t => .file (some t)
  | none, some bytes, _ => do return .ofBytes (← (← bytes.items?).mapM Json.nat?)
  | none, none, some target => target.string?.map .link
  | none, none, none => some .directory

end DiskNode

namespace Disk

/-- Create one entry of a snapshot. -/
def createEntry? (d : Disk) (j : Json) : Option Disk := do
  let path ← (← j.field? "path").string?
  return d.create path (← DiskNode.ofJson? j)

/-- The disk that a snapshot describes. -/
def ofJson? (j : Json) : Option Disk := do (← j.items?).foldlM createEntry? .empty

end Disk

end StyleVars
