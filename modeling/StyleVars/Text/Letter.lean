/-!
# Letter case

Case is ignored in two ways. Names are compared after lowering the letters A to Z and nothing else.
Units and colour functions are compared after case folding; two characters outside ASCII fold to an
ASCII letter, the long s and the Kelvin sign.
-/

namespace StyleVars

/-- Lower the letters A to Z. -/
def lowerAscii (cs : List Char) : List Char := cs.map Char.toLower

/-- Lower the letters A to Z of a string. -/
def lowercase (s : String) : String := String.ofList (lowerAscii s.toList)

/-- Whether two strings agree once the letters A to Z are lowered. -/
def sameIgnoringCase (a b : String) : Bool := lowerAscii a.toList == lowerAscii b.toList

/-- Case folding, exact for every character that folds into ASCII. -/
def foldCase (c : Char) : Char :=
  if c = '\u017f' then 's' else if c = '\u212a' then 'k' else c.toLower

end StyleVars
