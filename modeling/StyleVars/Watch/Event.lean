import StyleVars.Path.Filter

/-!
# File events

A workspace hears of files that are created, changed or deleted, and of a move of the head of the
repository, after which any file may have changed. Reports of the file system become such events
when they concern a file that the filter selects; nothing inside a `.git` directory counts but the
head.
-/

namespace StyleVars

inductive FileEvent where
  | created (path : String)
  | changed (path : String)
  | deleted (path : String)
  | headMoved
deriving Repr, DecidableEq

namespace FileEvent

/-- The path that an event concerns; a move of the head concerns none in particular. -/
def path? : FileEvent → Option Path
  | .created p => some (.ofString p)
  | .changed p => some (.ofString p)
  | .deleted p => some (.ofString p)
  | .headMoved => none

end FileEvent

/-- What the file system reports about paths. -/
inductive ReportKind where
  | create
  | modify
  | rename
  | remove
  | other
deriving Repr, DecidableEq

/-- The head of a repository, relative to its directory. -/
def headFile : Path := ⟨[.name ".git", .name "HEAD"]⟩

/-- The event that a report about one path stands for. A rename reports both ends, and what counts
is whether the path now exists. -/
def classifyPath (filter : PathFilter) (present : Path → Bool) (kind : ReportKind) (path : Path) :
    Option FileEvent :=
  let path := path.normalize
  if path.endsWith headFile then
    match kind with
    | .create => some .headMoved
    | .modify => some .headMoved
    | .rename => some .headMoved
    | .remove => none
    | .other => none
  else if path.components.contains (.name ".git") || !filter.selects path then none
  else
    match kind with
    | .create => some (.created path.text)
    | .rename => if present path then some (.created path.text) else some (.deleted path.text)
    | .modify => some (.changed path.text)
    | .remove => some (.deleted path.text)
    | .other => none

/-- The events that a report about several paths stands for. -/
def classify (filter : PathFilter) (present : Path → Bool) (kind : ReportKind)
    (paths : List Path) : List FileEvent :=
  paths.filterMap (classifyPath filter present kind)

end StyleVars
