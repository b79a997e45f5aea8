import StyleVars.Text.Lines

/-!
# Problems in a sheet

Reading a sheet never fails. What could not be read is recorded as a problem, with the place where
it was found, next to whatever could.
-/

namespace StyleVars

namespace Problem

inductive Cause where
  | unterminatedComment
  | missingSelector
  | unclosedBlock (selector : String)
  | nestedBlock
  | unexpectedClose
  | strayDeclaration
  | trailingContent
  | unclosedGroup
  | invalidProperty (text : String)
  | missingColon (text : String)
  | emptyValue (property : String)
deriving Repr, DecidableEq

def Cause.message : Cause → String
  | .unterminatedComment => "Unterminated comment"
  | .missingSelector => "Missing selector before '\x7b'"
  | .unclosedBlock selector => "Unclosed block for selector '" ++ selector ++ "'"
  | .nestedBlock => "Nested blocks are not supported inside a rule"
  | .unexpectedClose => "Unexpected '\x7d'"
  | .strayDeclaration => "Declaration outside of a rule"
  | .trailingContent => "Unexpected content at end of stylesheet"
  | .unclosedGroup => "Unclosed at-rule block"
  | .invalidProperty text => "Invalid property name in '" ++ text ++ "'"
  | .missingColon text => "Expected ':' after '" ++ text ++ "'"
  | .emptyValue property => "Empty value for property '" ++ property ++ "'"

end Problem

structure Problem where
  cause : Problem.Cause
  range : Range
deriving Repr, DecidableEq

def Problem.message (p : Problem) : String := p.cause.message

end StyleVars
