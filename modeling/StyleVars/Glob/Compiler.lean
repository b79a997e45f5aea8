import StyleVars.Glob.Match
import StyleVars.Glob.Reader
import StyleVars.Glob.Set

/-!
# The compiler of globs

Globs are read as this library writes them. A set of them is the list of what was read, whatever its
size, so it can be built as soon as each of its globs can be read.
-/

namespace StyleVars

/-- Read a glob, or say why it is none. -/
def Glob.read (s : String) : Except String Glob :=
  (ofString s).mapError fun fault => "error parsing glob '" ++ s ++ "': " ++ fault.message

/-- Read the globs of a set. -/
def GlobSet.read (globs : List String) : Except String GlobSet := do
  let set ← globs.mapM Glob.read
  return ⟨fun text => set.any (·.isMatch text)⟩

/-- Compile globs in the syntax of this library. -/
def GlobCompiler.standard : GlobCompiler where
  check glob := (Glob.read glob).map fun _ => ()
  build := GlobSet.read

end StyleVars
