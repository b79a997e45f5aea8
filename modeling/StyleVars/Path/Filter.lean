import StyleVars.Glob.Set
import StyleVars.Path.Basic

/-!
# Path filters

A filter selects the files of a workspace: those that its include globs match and its exclude globs
do not. Globs are matched against the path below the root of the workspace, or against the whole
path of a file that does not lie below it.
-/

namespace StyleVars

structure PathFilter where
  root : Path
  included : GlobSet
  excluded : GlobSet

namespace PathFilter

/-- Compile the globs of a filter, includes before excludes. -/
def compile (compiler : GlobCompiler) (root : Path) (included excluded : List String) :
    Except GlobError PathFilter := do
  let included ← compiler.compile included
  let excluded ← compiler.compile excluded
  return ⟨root.normalize, included, excluded⟩

/-- The filter that selects nothing. -/
def empty (root : Path) : PathFilter := ⟨root.normalize, .empty, .empty⟩

/-- Whether the filter selects a path. -/
def selects (f : PathFilter) (p : Path) : Bool :=
  let p := p.normalize
  let text := ((f.root.stripBase? p).getD p).text
  f.included.isMatch text && !f.excluded.isMatch text

end PathFilter

end StyleVars
