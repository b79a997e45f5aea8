import StyleVars.Diagnostic.Basic
import StyleVars.Naming.Similar
import StyleVars.Naming.Suggestion
import StyleVars.Resolution.Basic
import StyleVars.Settings.Basic

/-!
# Checking a sheet

A sheet is checked against a catalog under given settings. The findings come in four groups: names
that are not defined, literals, classes with more than one rule, and problems met in reading. Each
group follows the order of the sheet.
-/

namespace StyleVars

/-- The variable as a candidate for suggestions, with what its value comes to if that is known. -/
def VariableInfo.candidate (v : VariableInfo) : Candidate :=
  ⟨v.entry.name, v.resolved.getD v.entry.value, v.usage⟩

namespace Settings

/-- Whether a name counts as defined for a sheet. -/
def isDefined (s : Settings) (catalog : Catalog) (sheet : Sheet) (name : String) : Bool :=
  catalog.entries.contains name || (s.allowLocalDefinitions && sheet.defines name)

/-- The names that count as defined for a sheet. -/
def knownNames (s : Settings) (catalog : Catalog) (sheet : Sheet) : List String :=
  catalog.names ++
    if s.allowLocalDefinitions then sheet.definitions.map (·.property.text) else []

def undefinedSeverity (s : Settings) : Severity :=
  .ofName s.severities.undefinedVariable .error

def literalSeverity (s : Settings) (isFallback : Bool) : Severity :=
  if isFallback then .ofName s.severities.hardcodedFallback .information
  else .ofName s.severities.hardcodedValue .warning

def duplicateSeverity (s : Settings) : Severity := .ofName s.severities.duplicateClass .hint

def problemSeverity (s : Settings) : Severity := .ofName s.severities.parseError .warning

/-- References to names that are not defined. -/
def undefinedUsages (s : Settings) (catalog : Catalog) (sheet : Sheet) : List Diagnostic :=
  (sheet.usages.filter fun u => !s.isDefined catalog sheet u.reference.name).map fun u =>
    let name := u.reference.name
    ⟨u.range, s.undefinedSeverity,
      .undefinedVariable name (similarNames name (s.knownNames catalog sheet))⟩

/-- The literals of a sheet that are not allowed. -/
def reportedLiterals (s : Settings) (sheet : Sheet) : List LiteralUse :=
  (sheet.literals s.checkedSet).filter fun l => !s.isAllowed l.value.text

/-- The diagnostic for a literal. -/
def literalDiagnostic (s : Settings) (candidates : List Candidate) (l : LiteralUse) : Diagnostic :=
  let value := l.value.text
  let suggested := (suggestions value candidates Suggestion.defaultLimit).map (·.name)
  let finding : Finding :=
    if l.isFallback then .hardcodedFallback l.property value suggested
    else .hardcodedValue l.property value suggested
  ⟨l.range, s.literalSeverity l.isFallback, finding⟩

/-- Rules for classes that earlier rules are for. -/
def duplicateRules (s : Settings) (sheet : Sheet) : List Diagnostic :=
  sheet.duplicateClasses.flatMap fun name =>
    ((sheet.rules.filter fun r => r.selector.text == "." ++ name).drop 1).map fun r =>
      ⟨r.selectorRange, s.duplicateSeverity, .duplicateClass name⟩

def problemDiagnostics (s : Settings) (sheet : Sheet) : List Diagnostic :=
  sheet.problems.map fun p => ⟨p.range, s.problemSeverity, .parseError p.cause⟩

/-- All findings in a sheet, with suggestions from the candidates. -/
def check (s : Settings) (catalog : Catalog) (candidates : List Candidate) (sheet : Sheet) :
    List Diagnostic :=
  s.undefinedUsages catalog sheet ++
    (s.reportedLiterals sheet).map (s.literalDiagnostic candidates) ++
    s.duplicateRules sheet ++ s.problemDiagnostics sheet

/-- All findings in a text. -/
def diagnose (s : Settings) (catalog : Catalog) (text : String) : List Diagnostic :=
  s.check catalog (catalog.allResolved.map (·.candidate)) (.ofString text)

end Settings

end StyleVars
