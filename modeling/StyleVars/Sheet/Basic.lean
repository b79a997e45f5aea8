import StyleVars.Sheet.Problem
import StyleVars.Text.Name
import StyleVars.Value.Literal
import StyleVars.Value.Reference
import StyleVars.Value.Token

/-!
# Sheets

A sheet is a list of rules, each with a selector and declarations. A declaration of a variable is a
definition. The other declarations use variables, by references in their values, and may hold
literals: fallbacks of references, and, in properties that are checked for them, values or tokens of
values.
-/

namespace StyleVars

/-- A property with its value, which is without `!important`. -/
structure Declaration where
  property : Excerpt
  value : Excerpt
  important : Bool
  /-- From the start of the property to the end of the value. -/
  range : Range
deriving Repr, DecidableEq

structure Rule where
  selector : Excerpt
  selectorRange : Range
  /-- From the start of the selector to just past the closing brace. -/
  span : Span
  declarations : List Declaration
deriving Repr, DecidableEq

/-- A reference to a variable in the value of a property. -/
structure Usage where
  reference : Reference
  property : String
  range : Range
deriving Repr, DecidableEq

/-- A literal where a variable is preferred. -/
structure LiteralUse where
  property : String
  value : Excerpt
  /-- Whether the literal is the fallback of a reference. -/
  isFallback : Bool
  range : Range
deriving Repr, DecidableEq

structure Sheet where
  lines : LineTable
  rules : List Rule
  problems : List Problem
deriving Repr, DecidableEq

namespace Declaration

/-- Whether the declaration defines a variable. -/
def isDefinition (d : Declaration) : Bool := isVariableName d.property.chars

/-- The references in the value. A definition refers to other variables too, but does not use
them. -/
def usages (lines : LineTable) (d : Declaration) : List Usage :=
  if d.isDefinition then []
  else d.value.references.map fun r => ⟨r, d.property.text, lines.rangeOf r.source⟩

/-- The literals among the fallbacks of the references. -/
def fallbackLiterals (lines : LineTable) (d : Declaration) : List LiteralUse :=
  (d.value.references.filterMap (·.fallback)).filterMap fun f =>
    if isLiteral f.chars then some ⟨d.property.text, f, true, lines.rangeOf f⟩ else none

/-- The whole value if it is a literal, and otherwise the tokens that are. -/
def valueLiterals (lines : LineTable) (d : Declaration) : List LiteralUse :=
  let found := if isLiteral d.value.chars then [d.value] else
    d.value.tokens.filter fun t => isLiteral t.chars
  found.map fun e => ⟨d.property.text, e, false, lines.rangeOf e⟩

/-- The literals of a declaration, given the properties that are checked in lower case. -/
def literals (lines : LineTable) (checked : List String) (d : Declaration) : List LiteralUse :=
  if d.isDefinition then []
  else d.fallbackLiterals lines ++
    if checked.contains (lowercase d.property.text) then d.valueLiterals lines else []

end Declaration

/-- The class that a selector names, when it names one class and nothing else. -/
def className? : List Char → Option String
  | '.' :: name => if isOrdinaryName name then some (String.ofList name) else none
  | _ => none

namespace Sheet

def declarations (s : Sheet) : List Declaration := s.rules.flatMap (·.declarations)

/-- The declarations that define variables. -/
def definitions (s : Sheet) : List Declaration := s.declarations.filter (·.isDefinition)

/-- Whether the sheet defines a variable itself. -/
def defines (s : Sheet) (name : String) : Bool := s.definitions.any fun d => d.property.text == name

def usages (s : Sheet) : List Usage := s.declarations.flatMap (·.usages s.lines)

def literals (s : Sheet) (checked : List String) : List LiteralUse :=
  s.declarations.flatMap (·.literals s.lines checked)

/-- The classes that rules are headed by alone, one for each such rule. -/
def classNames (s : Sheet) : List String := s.rules.filterMap fun r => className? r.selector.chars

/-- The classes that head more than one rule, in the order in which they first appear. -/
def duplicateClasses (s : Sheet) : List String :=
  s.classNames.eraseDups.filter fun name => 1 < s.classNames.count name

end Sheet

end StyleVars
