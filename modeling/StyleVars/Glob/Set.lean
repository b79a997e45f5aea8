/-!
# Sets of globs

Globs are compiled in two stages. Each glob is checked by itself, and those that pass are then built
into a set, which matches a path when one of them does. Either stage can fail: the first names the
glob, the second all globs of the set. How globs are written and what they match is left to a
compiler.
-/

namespace StyleVars

/-- Globs that are matched together. -/
structure GlobSet where
  /-- Whether one of the globs matches the path with this text. -/
  isMatch : String → Bool

/-- The set without globs. -/
def GlobSet.empty : GlobSet := ⟨fun _ => false⟩

/-- What could not be compiled, and why. -/
structure GlobError where
  /-- A glob, or the globs of a set. -/
  globs : String
  reason : String
deriving Repr, DecidableEq

def GlobError.message (e : GlobError) : String :=
  "Invalid glob pattern '" ++ e.globs ++ "': " ++ e.reason

/-- A way to compile globs. Where it fails it gives the reason. -/
structure GlobCompiler where
  /-- Check the text of one glob. -/
  check : String → Except String Unit
  /-- Build a set from the texts of its globs. -/
  build : List String → Except String GlobSet

/-- Compile the globs of a set: check them in order, and then build the set. -/
def GlobCompiler.compile (c : GlobCompiler) (globs : List String) : Except GlobError GlobSet := do
  globs.forM fun glob => (c.check glob).mapError (⟨glob, ·⟩)
  (c.build globs).mapError (⟨", ".intercalate globs, ·⟩)

end StyleVars
