import StyleVars.Json.Basic
import StyleVars.Settings.Severity
import StyleVars.Sheet.Problem

/-!
# Diagnostics

A diagnostic is a finding at a place in a text, with a severity. Its message and its code follow
from what was found.
-/

namespace StyleVars

inductive Finding where
  /-- A reference to a name that nothing defines, with similar names that are known. -/
  | undefinedVariable (name : String) (similar : List String)
  /-- A literal in the value of a property, with the variables suggested for it. -/
  | hardcodedValue (property value : String) (suggested : List String)
  /-- A literal as the fallback of a reference. -/
  | hardcodedFallback (property value : String) (suggested : List String)
  /-- A rule for a class that an earlier rule is for. -/
  | duplicateClass (name : String)
  | parseError (cause : Problem.Cause)
deriving Repr, DecidableEq

namespace Finding

/-- The end of a message that names the best suggestion. -/
def hint : List String → String
  | [] => ""
  | best :: _ => " (try var(" ++ best ++ "))"

def quotedName (name : String) : String := "'" ++ name ++ "'"

def message : Finding → String
  | .undefinedVariable name similar =>
    let offer :=
      if similar.isEmpty then ""
      else ". Did you mean " ++ String.intercalate ", " (similar.map quotedName) ++ "?"
    "Undefined variable " ++ quotedName name ++ offer
  | .hardcodedValue property value suggested =>
    "Hardcoded value " ++ quotedName value ++ " in " ++ quotedName property ++
      " should use a variable" ++ hint suggested
  | .hardcodedFallback property value suggested =>
    "Hardcoded fallback " ++ quotedName value ++ " in " ++ quotedName property ++ hint suggested
  | .duplicateClass name => "Class '." ++ name ++ "' is already defined by an earlier rule"
  | .parseError cause => cause.message

def code : Finding → String
  | .undefinedVariable _ _ => "undefined-variable"
  | .hardcodedValue _ _ _ => "hardcoded-value"
  | .hardcodedFallback _ _ _ => "hardcoded-fallback"
  | .duplicateClass _ => "duplicate-class"
  | .parseError _ => "parse-error"

def literalData (property value : String) (suggested : List String) : Json := .record [
  ("property", .string property), ("value", .string value),
  ("suggestions", .arr (suggested.map .string))]

/-- What a finding says beyond its message. -/
def data? : Finding → Option Json
  | .undefinedVariable name similar =>
    some (.record [("name", .string name), ("similar", .arr (similar.map .string))])
  | .hardcodedValue property value suggested => some (literalData property value suggested)
  | .hardcodedFallback property value suggested => some (literalData property value suggested)
  | .duplicateClass _ => none
  | .parseError _ => none

end Finding

structure Diagnostic where
  range : Range
  severity : Severity
  finding : Finding
deriving Repr, DecidableEq

namespace Diagnostic

def message (d : Diagnostic) : String := d.finding.message

/-- The name under which diagnostics are published. -/
def source : String := "css-variables"

def positionJson (p : Position) : Json := .record [
  ("line", .nat p.line), ("character", .nat p.character)]

def rangeJson (r : Range) : Json := .record [
  ("start", positionJson r.start), ("end", positionJson r.stop)]

def toJson (d : Diagnostic) : Json := .record ([
  ("range", rangeJson d.range), ("severity", .nat d.severity.code),
  ("code", .string d.finding.code), ("source", .string source),
  ("message", .string d.message)] ++ (d.finding.data?.map fun data => ("data", data)).toList)

end Diagnostic

end StyleVars
