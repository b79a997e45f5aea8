import Std.Data.TreeMap
import StyleVars.Path.Filter
import StyleVars.Settings.Severity

/-!
# Settings

The settings of a workspace say which files belong to it, which properties are checked for literals,
which literals are allowed, and how severe each kind of finding is.
-/

namespace StyleVars

/-- Names of severities by kind of finding, as they are written in a settings file. -/
structure SeverityNames where
  undefinedVariable : String := "error"
  hardcodedValue : String := "warning"
  hardcodedFallback : String := "information"
  duplicateClass : String := "hint"
  parseError : String := "warning"
deriving Repr, DecidableEq

structure Settings where
  /-- Globs, below the root of the workspace, of the files that belong to it. -/
  included : List String
  /-- Globs of files that do not. -/
  excluded : List String
  /-- The properties that are checked for literals or not. -/
  checkedProperties : Std.TreeMap String Bool
  /-- Literals that are never reported. -/
  allowedValues : List String
  severities : SeverityNames
  /-- Whether the exclude globs are ignored. -/
  scanAllFiles : Bool
  /-- Whether variables defined in the analyzed text itself count as known. -/
  allowLocalDefinitions : Bool
  /-- How many milliseconds of quiet end a burst of file events. -/
  debounce : Nat

namespace Settings

def defaultChecked : List String :=
  ["color", "background", "background-color", "border-color", "outline-color", "fill", "stroke",
   "box-shadow", "font-size", "border-radius", "gap", "margin", "padding"]

def defaultAllowed : List String :=
  ["0", "auto", "none", "inherit", "initial", "unset", "transparent", "currentcolor", "100%"]

/-- The settings where none are given. -/
def byDefault : Settings where
  included := ["**/*.css"]
  excluded := ["**/node_modules/**", "**/dist/**"]
  checkedProperties := Std.TreeMap.ofList (defaultChecked.map fun p => (p, true))
  allowedValues := defaultAllowed
  severities := {}
  scanAllFiles := false
  allowLocalDefinitions := true
  debounce := 500

/-- The exclude globs that apply. -/
def effectiveExcluded (s : Settings) : List String := if s.scanAllFiles then [] else s.excluded

/-- Whether the settings name a property, in lower case, as checked. -/
def isChecked (s : Settings) (property : String) : Bool :=
  (s.checkedProperties[lowercase property]?).getD false

/-- The checked properties in lower case, by which declarations are selected. -/
def checkedSet (s : Settings) : List String :=
  (s.checkedProperties.toList.filter (·.2)).map fun (property, _) => lowercase property

/-- Whether a literal is allowed. -/
def isAllowed (s : Settings) (value : String) : Bool :=
  s.allowedValues.any (sameIgnoringCase · (trim value))

/-- The files that the settings select below a root. -/
def filter (s : Settings) (compiler : GlobCompiler) (root : Path) : Except GlobError PathFilter :=
  PathFilter.compile compiler root s.included s.effectiveExcluded

end Settings

end StyleVars
