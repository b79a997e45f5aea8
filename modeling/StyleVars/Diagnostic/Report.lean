import StyleVars.Diagnostic.Basic

/-!
# Reports

A report sums up the diagnostics of many files. Only files with diagnostics are listed, each with
counts by severity and its first few diagnostics as examples.
-/

namespace StyleVars

/-- A diagnostic as an example: its line, counted from one, the text of that line and the
message. -/
structure Example where
  line : Nat
  text : String
  message : String
deriving Repr, DecidableEq

structure FileReport where
  path : String
  counts : SeverityCounts
  examples : List Example
deriving Repr, DecidableEq

structure ProjectReport where
  /-- How many files were looked at, readable or not. -/
  filesScanned : Nat
  totals : SeverityCounts
  files : List FileReport
deriving Repr, DecidableEq

/-- How many examples a file has at most. -/
def exampleLimit : Nat := 5

/-- The example of a diagnostic. The line is counted from one, and is added up in 32 bits where it
is stored, which loses nothing in a text of fewer than `positionLimit` lines. -/
def Example.ofDiagnostic (lines : LineTable) (d : Diagnostic) : Example :=
  ⟨d.range.start.line + 1, trim ((lines.lineText? d.range.start.line).getD ""), d.message⟩

def SeverityCounts.toJson (c : SeverityCounts) : Json := .record [
  ("errors", .nat c.errors), ("warnings", .nat c.warnings), ("information", .nat c.information),
  ("hints", .nat c.hints)]

namespace FileReport

/-- Sum up the diagnostics of a file with the given text. -/
def ofDiagnostics (path text : String) (ds : List Diagnostic) : FileReport where
  path
  counts := ds.foldl (fun counts d => counts.count (some d.severity)) .zero
  examples := (ds.take exampleLimit).map (.ofDiagnostic (.ofString text))

def toJson (r : FileReport) : Json := .record [
  ("path", .string r.path), ("counts", r.counts.toJson),
  ("examples", .arr (r.examples.map fun e => .record [
    ("line", .nat e.line), ("text", .string e.text), ("message", .string e.message)]))]

end FileReport

namespace ProjectReport

def start (filesScanned : Nat) : ProjectReport := ⟨filesScanned, .zero, []⟩

/-- Add the diagnostics of one more file, if there are any. -/
def add (r : ProjectReport) (path text : String) (ds : List Diagnostic) : ProjectReport :=
  if ds.isEmpty then r
  else
    let file := FileReport.ofDiagnostics path text ds
    { r with totals := r.totals.add file.counts, files := r.files ++ [file] }

def toJson (r : ProjectReport) : Json := .record [
  ("files_scanned", .nat r.filesScanned), ("totals", r.totals.toJson),
  ("files", .arr (r.files.map (·.toJson)))]

end ProjectReport

end StyleVars
