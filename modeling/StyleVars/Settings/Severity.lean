import StyleVars.Text.Blank
import StyleVars.Text.Letter

/-!
# Severities
-/

namespace StyleVars

inductive Severity where
  | error
  | warning
  | information
  | hint
deriving Repr, DecidableEq

namespace Severity

/-- The severity that a name stands for, in any case and with blanks around it. -/
def ofName? (name : String) : Option Severity :=
  match lowercase (trim name) with
  | "error" => some .error
  | "warning" => some .warning
  | "information" => some .information
  | "info" => some .information
  | "hint" => some .hint
  | _ => none

/-- The severity that a name stands for, or the default where it stands for none. -/
def ofName (name : String) (byDefault : Severity) : Severity := (ofName? name).getD byDefault

def name : Severity → String
  | .error => "error"
  | .warning => "warning"
  | .information => "information"
  | .hint => "hint"

/-- Numbers from 1 for an error to 4 for a hint. -/
def code : Severity → Nat
  | .error => 1
  | .warning => 2
  | .information => 3
  | .hint => 4

end Severity

/-- How many findings there are of each severity. -/
structure SeverityCounts where
  errors : Nat
  warnings : Nat
  information : Nat
  hints : Nat
deriving Repr, DecidableEq

namespace SeverityCounts

def zero : SeverityCounts := ⟨0, 0, 0, 0⟩

/-- Count one finding; one without a severity counts as information. -/
def count (c : SeverityCounts) : Option Severity → SeverityCounts
  | some .error => { c with errors := c.errors + 1 }
  | some .warning => { c with warnings := c.warnings + 1 }
  | some .hint => { c with hints := c.hints + 1 }
  | some .information => { c with information := c.information + 1 }
  | none => { c with information := c.information + 1 }

def add (c d : SeverityCounts) : SeverityCounts :=
  ⟨c.errors + d.errors, c.warnings + d.warnings, c.information + d.information, c.hints + d.hints⟩

def total (c : SeverityCounts) : Nat := c.errors + c.warnings + c.information + c.hints

end SeverityCounts

end StyleVars
