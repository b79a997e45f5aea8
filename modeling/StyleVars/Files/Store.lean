import StyleVars.Path.Filter

/-!
# Stores of files

A store lists paths and holds texts. A path is listed as it was first written, and may be listed
more than once in different forms; texts are kept by normalized path. Listed files may lack a text,
and files may be unreadable: reading them gives nothing.
-/

namespace StyleVars

structure FileStore where
  /-- The listed paths as written. -/
  listing : List String
  /-- The texts by normalized path. -/
  texts : List (Path × String)
  /-- Normalized paths that cannot be read. -/
  unreadable : List Path

namespace FileStore

def empty : FileStore := ⟨[], [], []⟩

/-- The normalized path that a written path stands for. -/
def key (path : String) : Path := (Path.ofString path).normalize

/-- The listed paths that a filter selects, as written. -/
def find (s : FileStore) (filter : PathFilter) : List String :=
  s.listing.filter fun path => filter.selects (.ofString path)

/-- The text of a file that can be read. -/
def read? (s : FileStore) (path : Path) : Option String :=
  if s.unreadable.contains path.normalize then none else s.texts.lookup path.normalize

/-- Write a text. A path that is not listed yet comes last in the listing. -/
def write (s : FileStore) (path text : String) : FileStore :=
  { s with
    listing := if s.listing.any (key · = key path) then s.listing else s.listing ++ [path]
    texts := (key path, text) :: s.texts.filter (·.1 != key path) }

/-- List a path without giving it a text. -/
def list (s : FileStore) (path : String) : FileStore := { s with listing := s.listing ++ [path] }

/-- Remove a text and all listed forms of its path. -/
def delete (s : FileStore) (path : String) : FileStore :=
  { s with
    listing := s.listing.filter (key · ≠ key path)
    texts := s.texts.filter (·.1 != key path) }

/-- Make a file unreadable, or readable again. -/
def setUnreadable (s : FileStore) (path : String) (on : Bool) : FileStore :=
  let others := s.unreadable.filter (· != key path)
  { s with unreadable := if on then key path :: others else others }

end FileStore

end StyleVars
