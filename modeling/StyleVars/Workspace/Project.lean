import StyleVars.Files.Disk
import StyleVars.Glob.Compiler
import StyleVars.Settings.Reader
import StyleVars.Workspace.Basic

/-!
# Projects

A project is a directory of a disk. Its settings stand in a file that is named, or else in one of a
fixed name in the directory itself; where they cannot be loaded the defaults apply.
-/

namespace StyleVars

structure Project where
  root : Path
  /-- The path of the settings as it is written. -/
  settingsPath : String
deriving Repr, DecidableEq

namespace Project

/-- The name of a settings file that is not named. -/
def settingsName : String := "css-variable-lens.json"

/-- The path of the settings file in the directory that `root` leads to. -/
def settingsBelow (root : String) : String :=
  if root.isEmpty || root.toList.getLast? == some '/' then root ++ settingsName
  else root ++ "/" ++ settingsName

def ofPaths (root : String) (settingsPath : Option String) : Project :=
  ⟨.ofString root, settingsPath.getD (settingsBelow root)⟩

/-- The settings of the project. -/
def settings (p : Project) (disk : Disk) : Settings :=
  Settings.loadOrDefault p.settingsPath (disk.read? p.settingsPath)

/-- The files of the project. -/
def store (p : Project) (disk : Disk) : FileStore := disk.toStore p.root

/-- A workspace for the project, whose index has been scanned. -/
def load (p : Project) (disk : Disk) : Except GlobError Workspace := do
  let w ← Workspace.create .standard p.root (p.settings disk)
  return w.scan (p.store disk) false

end Project

end StyleVars
