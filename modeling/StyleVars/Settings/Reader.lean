import StyleVars.Json.Printer
import StyleVars.Json.Reader
import StyleVars.Settings.Basic

/-!
# Settings files

Settings are written as a JSON object. Keys that are missing take their defaults and unknown keys
are ignored, but no known key may be given twice, and a value of the wrong kind is an error. A
record may also be written as an array of its fields in order, of which the last ones may be
missing.
-/

namespace StyleVars

namespace Settings

/-- The values of the fields of a record by their names, each at most once. Nothing but an object or
an array stands for a record. -/
def fields? (names : List String) : Json → Option (List (String × Json))
  | .obj given =>
    (given.mapM fun (f : Option String × Json) => f.1.map fun key => (key, f.2)).bind fun given =>
      let known := given.filter fun (key, _) => names.contains key
      if (known.map (·.1)).Nodup then some known else none
  | .arr items => if items.length ≤ names.length then some (names.zip items) else none
  | _ => none

/-- The field `key`, or its default where it is missing. -/
def fieldOr {α : Type} (read? : Json → Option α) (byDefault : α) (fields : List (String × Json))
    (key : String) : Option α :=
  match fields.lookup key with
  | some v => read? v
  | none => some byDefault

def strings? (j : Json) : Option (List String) := do (← j.items?).mapM Json.string?

/-- A map from names to flags. A name that is given twice keeps the last flag. -/
def flags? : Json → Option (Std.TreeMap String Bool)
  | .obj given => given.foldlM (fun map (key, v) => do return map.insert (← key) (← v.bool?)) ∅
  | _ => none

/-- A whole number that fits into 64 bits. -/
def milliseconds? (j : Json) : Option Nat := do
  let n ← j.nat?
  if n < UInt64.size then some n else none

def severityNames? (j : Json) : Option SeverityNames := do
  let fields ← fields?
    ["undefinedVariable", "hardcodedValue", "hardcodedFallback", "duplicateClass", "parseError"] j
  let name := fieldOr Json.string?
  let d : SeverityNames := {}
  return {
    undefinedVariable := ← name d.undefinedVariable fields "undefinedVariable"
    hardcodedValue := ← name d.hardcodedValue fields "hardcodedValue"
    hardcodedFallback := ← name d.hardcodedFallback fields "hardcodedFallback"
    duplicateClass := ← name d.duplicateClass fields "duplicateClass"
    parseError := ← name d.parseError fields "parseError" }

/-- Read settings from a JSON value. -/
def ofJson? (j : Json) : Option Settings := do
  let fields ← fields?
    ["include", "exclude", "checkedProperties", "allowedValues", "severities", "scanAllFiles",
     "allowLocalDefinitions", "debounceMs"] j
  let d := byDefault
  return {
    included := ← fieldOr strings? d.included fields "include"
    excluded := ← fieldOr strings? d.excluded fields "exclude"
    checkedProperties := ← fieldOr flags? d.checkedProperties fields "checkedProperties"
    allowedValues := ← fieldOr strings? d.allowedValues fields "allowedValues"
    severities := ← fieldOr severityNames? d.severities fields "severities"
    scanAllFiles := ← fieldOr Json.bool? d.scanAllFiles fields "scanAllFiles"
    allowLocalDefinitions :=
      ← fieldOr Json.bool? d.allowLocalDefinitions fields "allowLocalDefinitions"
    debounce := ← fieldOr milliseconds? d.debounce fields "debounceMs" }

/-- Read the text of a settings file. -/
def read? (text : String) : Option Settings := (Json.read? text).bind ofJson?

/-- Why settings could not be loaded. -/
inductive LoadError where
  /-- There is no such file. -/
  | missing (path : String)
  /-- The text of the file is not a record of settings. -/
  | malformed (path : String)
deriving Repr, DecidableEq

def LoadError.message : LoadError → String
  | .missing path =>
    "IO error on " ++ Json.quoted path ++ ": No such file or directory (os error 2)"
  | .malformed path => "Invalid configuration in " ++ Json.quoted path

/-- Load settings from a file, whose text is given if it can be read. -/
def load (path : String) : Option String → Except LoadError Settings
  | none => .error (.missing path)
  | some text =>
    match read? text with
    | some s => .ok s
    | none => .error (.malformed path)

/-- Load settings, with the defaults in place of any that cannot be loaded. -/
def loadOrDefault (path : String) (text : Option String) : Settings :=
  match load path text with
  | .ok s => s
  | .error _ => byDefault

/-- Settings as a JSON value. -/
def toJson (s : Settings) : Json := .record [
  ("include", .arr (s.included.map .string)),
  ("exclude", .arr (s.excluded.map .string)),
  ("checkedProperties", .record (s.checkedProperties.toList.map fun (p, b) => (p, .bool b))),
  ("allowedValues", .arr (s.allowedValues.map .string)),
  ("severities", .record [
    ("undefinedVariable", .string s.severities.undefinedVariable),
    ("hardcodedValue", .string s.severities.hardcodedValue),
    ("hardcodedFallback", .string s.severities.hardcodedFallback),
    ("duplicateClass", .string s.severities.duplicateClass),
    ("parseError", .string s.severities.parseError)]),
  ("scanAllFiles", .bool s.scanAllFiles),
  ("allowLocalDefinitions", .bool s.allowLocalDefinitions),
  ("debounceMs", .nat s.debounce)]

end Settings

end StyleVars
