import StyleVars.Sheet.Reader

/-!
# Surveys

A survey is what one pass over a text collects, for given properties that are checked for literals.
Each declaration adds to several lists at once when it is read: a definition, or the usages of its
value with the literals among their fallbacks, and then the literals of the value itself if the
property is checked. The number of open groups is kept on the way.
-/

namespace StyleVars

/-- What has been collected from a text. -/
structure Survey where
  rules : List Rule
  definitions : List Declaration
  usages : List Usage
  literals : List LiteralUse
  duplicateClasses : List String
  problems : List Problem
deriving Repr, DecidableEq

namespace Survey

/-- Nothing collected yet. -/
def blank : Survey := ⟨[], [], [], [], [], []⟩

def addProblem (s : Survey) (p : Problem) : Survey := { s with problems := s.problems ++ [p] }

def addLiteral (lines : LineTable) (d : Declaration) (isFallback : Bool) (s : Survey)
    (e : Excerpt) : Survey :=
  { s with literals := s.literals ++ [⟨d.property.text, e, isFallback, lines.rangeOf e⟩] }

/-- Add a reference in the value of a declaration, and its fallback if that is a literal. -/
def addReference (lines : LineTable) (d : Declaration) (s : Survey) (r : Reference) : Survey :=
  let s := match r.fallback with
    | some f => if isLiteral f.chars then s.addLiteral lines d true f else s
    | none => s
  { s with usages := s.usages ++ [⟨r, d.property.text, lines.rangeOf r.source⟩] }

/-- Add the whole value of a declaration if it is a literal, and otherwise the tokens that are. -/
def addValue (lines : LineTable) (d : Declaration) (s : Survey) : Survey :=
  if isLiteral d.value.chars then s.addLiteral lines d false d.value
  else d.value.tokens.foldl
    (fun s t => if isLiteral t.chars then s.addLiteral lines d false t else s) s

/-- Add what a declaration holds, given the properties that are checked in lower case. -/
def addDeclaration (lines : LineTable) (checked : List String) (s : Survey) (d : Declaration) :
    Survey :=
  if d.isDefinition then { s with definitions := s.definitions ++ [d] }
  else
    let s := d.value.references.foldl (addReference lines d) s
    if checked.contains (lowercase d.property.text) then s.addValue lines d else s

/-- Read a segment of a body, after some declarations of that body. -/
def readSegment (lines : LineTable) (checked : List String) (state : Survey × List Declaration)
    (segment : Excerpt) : Survey × List Declaration :=
  if segment.isPassedOver then state
  else match Declaration.read lines segment with
    | .ok d => (state.1.addDeclaration lines checked d, state.2 ++ [d])
    | .error p => (state.1.addProblem p, state.2)

/-- Add a rule. The problems of its braces come before those of its declarations. -/
def addRule (lines : LineTable) (checked : List String) (s : Survey) (selector : Excerpt)
    (brace : Nat) (body : Excerpt) (closed : Bool) : Survey :=
  let atBrace := lines.range brace (brace + 1)
  let s := if selector.isEmpty then s.addProblem ⟨.missingSelector, atBrace⟩ else s
  let s := if closed then s else s.addProblem ⟨.unclosedBlock selector.text, atBrace⟩
  let s := match body.firstNested? with
    | some offset => s.addProblem ⟨.nestedBlock, lines.range offset (offset + 1)⟩
    | none => s
  let (s, declarations) :=
    (body.pieces.flatMap (·.segments)).foldl (readSegment lines checked) (s, [])
  { s with rules := s.rules ++ [{
      selector
      selectorRange := lines.rangeOf selector
      span := ⟨selector.start, if closed then body.stop + 1 else body.stop⟩
      declarations }] }

/-- Read a chunk, with a number of groups open before it. -/
def readChunk (lines : LineTable) (checked : List String) (state : Nat × Survey) :
    Chunk → Nat × Survey
  | .statement text =>
    (state.1, if text.isEmpty || text.chars.head? == some '@' then state.2
      else state.2.addProblem ⟨.strayDeclaration, lines.rangeOf text⟩)
  | .group => (state.1 + 1, state.2)
  | .close offset =>
    if state.1 = 0 then
      (0, state.2.addProblem ⟨.unexpectedClose, lines.range offset (offset + 1)⟩)
    else (state.1 - 1, state.2)
  | .rule selector brace body closed =>
    (state.1, state.2.addRule lines checked selector brace body closed)
  | .tail text =>
    (state.1, if text.isEmpty then state.2
      else state.2.addProblem ⟨.trailingContent, lines.rangeOf text⟩)

/-- The survey of a text that ends at the offset `stop`, where no group may be open. -/
def finish (lines : LineTable) (stop : Nat) (state : Nat × Survey) : Survey :=
  if state.1 = 0 then state.2
  else state.2.addProblem ⟨.unclosedGroup, lines.range stop stop⟩

/-- Survey a text, given the properties that are checked in lower case. -/
def ofChars (checked : List String) (cs : List Char) : Survey :=
  let lines := LineTable.ofChars 0 cs
  let s := match Comment.unterminated? cs with
    | some start => blank.addProblem ⟨.unterminatedComment, lines.range start (start + 2)⟩
    | none => blank
  let chunks := (⟨0, Comment.blank cs⟩ : Excerpt).chunks
  let s := finish lines (byteSize cs) (chunks.foldl (readChunk lines checked) (0, s))
  { s with duplicateClasses := (⟨lines, s.rules, s.problems⟩ : Sheet).duplicateClasses }

def ofString (checked : List String) (text : String) : Survey := ofChars checked text.toList

end Survey

end StyleVars
