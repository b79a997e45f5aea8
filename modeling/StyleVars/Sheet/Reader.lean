import StyleVars.Sheet.Basic
import StyleVars.Sheet.Block
import StyleVars.Sheet.Comment

/-!
# Reading a sheet

A sheet is read from its text with the comments blanked. Each chunk gives a rule or nothing, and the
problems met in it. Closing braces end groups as long as groups are open, and are problems after
that. Positions always refer to the text with its comments.
-/

namespace StyleVars

/-- The property at the start of a declaration, and what follows the colon after it. -/
def readProperty? (segment : Excerpt) : Option (Excerpt × Excerpt) :=
  let start := segment.dropWhile isBlank
  match start.readVariableName?.or start.readOrdinaryName? with
  | none => none
  | some (property, rest) =>
    ((rest.dropWhile isBlank).skip? [':']).map fun value => (property, value)

namespace Declaration

/-- Read a declaration from a text that is not blank. Only a definition may have an empty value. -/
def read (lines : LineTable) (segment : Excerpt) : Except Problem Declaration :=
  match readProperty? segment with
  | none =>
    let text := segment.trim
    let cause : Problem.Cause :=
      if text.chars.contains ':' then .invalidProperty text.text else .missingColon text.text
    .error ⟨cause, lines.rangeOf text⟩
  | some (property, rest) =>
    let (value, important) := rest.trim.withoutImportant
    if value.isEmpty && !isVariableName property.chars then
      .error ⟨.emptyValue property.text, lines.rangeOf property⟩
    else .ok ⟨property, value, important, lines.range property.start value.stop⟩

end Declaration

namespace Excerpt

/-- The texts between the semicolons that stand outside quotes and parentheses. Nothing follows a
final semicolon. -/
def segments (e : Excerpt) : List Excerpt :=
  let parts := e.splitTop (· == ';')
  match parts.getLast? with
  | some last => if last.isEmpty then parts.dropLast else parts
  | none => parts

/-- Whether a segment is passed over: it is blank, or a block opens in it. -/
def isPassedOver (segment : Excerpt) : Bool :=
  segment.trim.isEmpty || segment.chars.contains '{'

end Excerpt

/-- The declarations in the body of a rule, each read or a problem. -/
def readBody (lines : LineTable) (body : Excerpt) : List (Except Problem Declaration) :=
  ((body.pieces.flatMap (·.segments)).filter (!·.isPassedOver)).map (Declaration.read lines)

/-- What is read: the declarations without the problems. -/
def readsOf (results : List (Except Problem Declaration)) : List Declaration :=
  results.filterMap fun
    | .ok d => some d
    | .error _ => none

/-- What could not be read. -/
def problemsOf (results : List (Except Problem Declaration)) : List Problem :=
  results.filterMap fun
    | .ok _ => none
    | .error p => some p

namespace Chunk

/-- The rule that a chunk is. -/
def rule? (lines : LineTable) : Chunk → Option Rule
  | .rule selector _ body closed =>
    some {
      selector
      selectorRange := lines.rangeOf selector
      span := ⟨selector.start, if closed then body.stop + 1 else body.stop⟩
      declarations := readsOf (readBody lines body) }
  | _ => none

/-- The problems of a rule: first those of its braces, then those of its declarations. -/
def ruleProblems (lines : LineTable) (selector : Excerpt) (brace : Nat) (body : Excerpt)
    (closed : Bool) : List Problem :=
  let atBrace := lines.range brace (brace + 1)
  (if selector.isEmpty then [⟨.missingSelector, atBrace⟩] else []) ++
    (if closed then [] else [⟨.unclosedBlock selector.text, atBrace⟩]) ++
    (match body.firstNested? with
      | some offset => [⟨.nestedBlock, lines.range offset (offset + 1)⟩]
      | none => []) ++
    problemsOf (readBody lines body)

/-- The problems of the chunks of a sheet, with `groups` groups open before them. The text ends at
the offset `stop`. -/
def problems (lines : LineTable) (stop : Nat) : Nat → List Chunk → List Problem
  | 0, [] => []
  | _ + 1, [] => [⟨.unclosedGroup, lines.range stop stop⟩]
  | groups, .statement text :: rest =>
    (if text.isEmpty || text.chars.head? == some '@' then []
      else [⟨.strayDeclaration, lines.rangeOf text⟩]) ++ problems lines stop groups rest
  | groups, .group :: rest => problems lines stop (groups + 1) rest
  | 0, .close offset :: rest =>
    ⟨.unexpectedClose, lines.range offset (offset + 1)⟩ :: problems lines stop 0 rest
  | groups + 1, .close _ :: rest => problems lines stop groups rest
  | groups, .rule selector brace body closed :: rest =>
    ruleProblems lines selector brace body closed ++ problems lines stop groups rest
  | groups, .tail text :: rest =>
    (if text.isEmpty then [] else [⟨.trailingContent, lines.rangeOf text⟩]) ++
      problems lines stop groups rest

end Chunk

namespace Sheet

/-- Read a sheet from its characters. -/
def ofChars (cs : List Char) : Sheet :=
  let lines := LineTable.ofChars 0 cs
  let chunks := (⟨0, Comment.blank cs⟩ : Excerpt).chunks
  let comment := match Comment.unterminated? cs with
    | some start => [⟨.unterminatedComment, lines.range start (start + 2)⟩]
    | none => []
  { lines
    rules := chunks.filterMap (·.rule? lines)
    problems := comment ++ Chunk.problems lines (byteSize cs) 0 chunks }

def ofString (s : String) : Sheet := ofChars s.toList

end Sheet

end StyleVars
