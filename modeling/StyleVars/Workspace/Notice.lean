import StyleVars.Text.Split
import StyleVars.Workspace.Basic

/-!
# Notices

Notices are what is said beside a report. Names that stand for no severity and files that cannot be
read are logged and do not end the work.
-/

namespace StyleVars

inductive Notice where
  | plain (message : String)
  | logged (level : Severity) (message : String)
deriving Repr, DecidableEq

namespace Notice

/-- A notice as it is printed. A logged one starts with its level in brackets. -/
def text : Notice → String
  | plain message => message
  | logged level message => "[" ++ level.name ++ "] " ++ message

/-- The lines on which a notice is printed. A carriage return before a line feed is part of the line
break. -/
def lines (n : Notice) : List String :=
  (splitAtEach '\n' n.text.toList).map fun line =>
    String.ofList ((stripSuffix? ['\r'] line).getD line)

/-- A file has bytes that are not UTF-8. -/
def unreadable (path : String) : Notice :=
  .logged .warning ("Failed to read " ++ path ++ ": stream did not contain valid UTF-8")

end Notice

namespace Severity

def title : Severity → String
  | .error => "Error"
  | .warning => "Warning"
  | .information => "Information"
  | .hint => "Hint"

/-- The notice for a name that stands for no severity. -/
def unknownName? (name : String) (byDefault : Severity) : Option Notice :=
  match ofName? name with
  | some _ => none
  | none => some (.logged .warning
      ("Unknown severity '" ++ lowercase (trim name) ++ "', using " ++ byDefault.title))

end Severity

/-- What is said in checking a sheet. The severities of literals are asked for only where there are
literals to report. -/
def Settings.checkNotices (s : Settings) (sheet : Sheet) : List Notice :=
  let forLiterals :=
    if (s.reportedLiterals sheet).isEmpty then []
    else [Severity.unknownName? s.severities.hardcodedValue .warning,
      Severity.unknownName? s.severities.hardcodedFallback .information]
  ([Severity.unknownName? s.severities.undefinedVariable .error] ++ forLiterals ++
    [Severity.unknownName? s.severities.duplicateClass .hint,
      Severity.unknownName? s.severities.parseError .warning]).filterMap id

namespace Workspace

/-- What is said in scanning the files that the filter selects. -/
def scanNotices (w : Workspace) (store : FileStore) : List Notice :=
  ((w.index.filesToScan store).filter fun path => (store.read? path).isNone).map fun path =>
    .unreadable path.text

/-- What is said in analyzing all files that the filter selects, none of them from the cache. -/
def analysisNotices (w : Workspace) (store : FileStore) : List Notice :=
  (w.projectFiles store).flatMap fun path =>
    match store.read? (.ofString path) with
    | some text => w.settings.checkNotices (.ofString text)
    | none => [.unreadable path]

end Workspace

end StyleVars
