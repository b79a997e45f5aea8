import StyleVars.Workspace.Notice
import StyleVars.Workspace.Project

/-!
# The command line

The command reports on the stylesheets of a project. Its arguments are the directory of the project
and, if it likes, the path of a settings file; whatever starts with two dashes is an option.
-/

namespace StyleVars

/-- What the command is asked to do. -/
structure Command where
  project : Project
  /-- Whether it is over after the first report. -/
  once : Bool
deriving Repr, DecidableEq

/-- What the command gives back: an exit code, what it prints, and what it says beside that. -/
structure CommandResult where
  code : UInt8
  output : String
  notices : List Notice
deriving Repr, DecidableEq

namespace Command

/-- The name by which the command is called. -/
def programName : String := "css_variable_lens"

/-- Whether an argument is an option. -/
def isOption (argument : String) : Bool := ['-', '-'].isPrefixOf argument.toList

/-- Read arguments. There must be a directory; arguments after a settings file are ignored. -/
def ofArguments? (arguments : List String) : Option Command :=
  match arguments.filter (!isOption ·) with
  | [] => none
  | root :: more => some ⟨.ofPaths root more.head?, arguments.contains "--once"⟩

/-- How the command is used. -/
def usage (program : String) : List String :=
  ["Usage: " ++ program ++ " <project_path> [config_path] [--once]",
   "  <project_path>: Root of the stylesheets to index and lint",
   "  [config_path]:  JSON configuration (default: <project_path>/" ++ Project.settingsName ++ ")",
   "  --once:         Report once and exit instead of watching for changes",
   "Example: " ++ program ++ " ./web --once"]

/-- A report as it is printed. -/
def reportText (report : ProjectReport) : String := report.toJson.pretty 0 ++ "\n"

/-- Report once on a project. -/
def report (c : Command) (disk : Disk) : CommandResult :=
  match c.project.load disk with
  | .ok w =>
    let store := c.project.store disk
    ⟨0, reportText (w.analyzeProject store).2.1, w.scanNotices store ++ w.analysisNotices store⟩
  | .error e =>
    let message := "Failed to set up workspace: " ++ e.message
    ⟨1, "", [.logged .error message, .plain message]⟩

/-- Run the command up to its first report. -/
def run (program : String) (arguments : List String) (disk : Disk) : CommandResult :=
  match ofArguments? arguments with
  | some c => c.report disk
  | none => ⟨1, "", (usage program).map .plain⟩

end Command

end StyleVars
