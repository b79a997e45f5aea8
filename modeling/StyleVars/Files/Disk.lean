import StyleVars.Files.Store

/-!
# Disks

A disk is a tree of directories, files and symbolic links below a working directory. It is held as a
list of entries by their places, which are the names that lead there without passing through a link.
A file whose bytes are not UTF-8 has no text.

A path is followed as it is written, piece by piece between its slashes. Every piece is looked up in
a directory, also an empty one or a point, so a path with a slash at its end leads to a directory or
nowhere. Paths that lead out of the working directory lead nowhere.
-/

namespace StyleVars

inductive DiskNode where
  | directory
  | file (text : Option String)
  /-- A link with the path that is written in it. -/
  | link (target : String)
deriving Repr, DecidableEq

/-- The names that lead to an entry. -/
abbrev Place := List String

structure Disk where
  entries : List (Place × DiskNode)
deriving Repr, DecidableEq

namespace Disk

def empty : Disk := ⟨[]⟩

def node? (d : Disk) (place : Place) : Option DiskNode :=
  if place.isEmpty then some .directory else d.entries.lookup place

/-- The pieces of a path between its slashes. -/
def piecesOf (path : String) : List String := (splitAtEach '/' path.toList).map String.ofList

def isAbsolute (path : String) : Bool := path.toList.head? == some '/'

/-- Whether a piece of a path stays in the directory where it is looked up. -/
def stays (piece : String) : Bool := piece == "" || piece == "."

/-- The place that pieces lead to from the place `here`, through at most `links` links. A link is
followed also at the end. -/
def resolve (d : Disk) (links : Nat) (here : Place) (pieces : List String) : Option Place :=
  match pieces with
  | [] => some here
  | piece :: rest =>
    if d.node? here ≠ some .directory then none
    else if stays piece then d.resolve links here rest
    else if piece = ".." then
      if here.isEmpty then none else d.resolve links here.dropLast rest
    else
      match d.node? (here ++ [piece]) with
      | some (.link target) =>
        match links with
        | 0 => none
        | links + 1 =>
          if isAbsolute target then none else d.resolve links here (piecesOf target ++ rest)
      | some _ => d.resolve links (here ++ [piece]) rest
      | none => none
termination_by (links, pieces.length)

/-- How many links a path may pass through. -/
def linkLimit : Nat := 40

/-- The place that a path leads to from the working directory. -/
def locate? (d : Disk) (path : String) : Option Place :=
  if isAbsolute path then none else d.resolve linkLimit [] (piecesOf path)

/-- The text of the file that a path leads to. -/
def read? (d : Disk) (path : String) : Option String := do
  match ← d.node? (← d.locate? path) with
  | .file text => text
  | _ => none

/-- Make the directories that pieces lead through from the place `here`. Gives back the last of
them. -/
def makeDirectories (d : Disk) (here : Place) : List String → Disk × Place
  | [] => (d, here)
  | piece :: rest =>
    if stays piece then makeDirectories d here rest
    else if piece = ".." then makeDirectories d here.dropLast rest
    else
      let next := here ++ [piece]
      match d.node? next with
      | some (.link _) => makeDirectories d ((d.resolve linkLimit here [piece]).getD next) rest
      | some _ => makeDirectories d next rest
      | none => makeDirectories ⟨d.entries ++ [(next, .directory)]⟩ next rest

/-- Where a file is written that is to be called `name` in the directory `parent`. Links are written
through, also those that lead to no file yet. -/
def writePlace (d : Disk) : (links : Nat) → (parent : Place) → (name : String) → Place
  | 0, parent, name => parent ++ [name]
  | links + 1, parent, name =>
    match d.node? (parent ++ [name]) with
    | some (.link target) =>
      let pieces := piecesOf target
      match d.resolve links parent pieces.dropLast, pieces.getLast? with
      | some parent, some name => d.writePlace links parent name
      | _, _ => parent ++ [name]
    | _ => parent ++ [name]

/-- Put a node at a place. -/
def put (d : Disk) (place : Place) (node : DiskNode) : Disk :=
  ⟨d.entries.filter (·.1 != place) ++ [(place, node)]⟩

/-- Create an entry, and the directories that lead to it. -/
def create (d : Disk) (path : String) (node : DiskNode) : Disk :=
  let pieces := (piecesOf path).filter (!stays ·)
  match node, pieces.getLast? with
  | .file _, some last =>
    let (d, parent) := d.makeDirectories [] pieces.dropLast
    d.put (d.writePlace linkLimit parent last) node
  | .link _, some last =>
    let (d, parent) := d.makeDirectories [] pieces.dropLast
    d.put (parent ++ [last]) node
  | _, _ => (d.makeDirectories [] pieces).1

/-- Whether the last name of a path is that of a link. -/
def isLink (d : Disk) (path : Path) : Bool :=
  match d.locate? (Path.text ⟨path.components.dropLast⟩), path.components.getLast? with
  | some parent, some (.name name) =>
    match d.node? (parent ++ [name]) with
    | some (.link _) => true
    | _ => false
  | _, _ => false

/-- The file that an entry is, if it lies below `base` and no `.git` stands between, by its path
below `root`. -/
def fileBelow? (root : Path) (base : Place) : Place × DiskNode → Option (Path × Option String)
  | (place, .file text) =>
    let names := place.drop base.length
    if base.isPrefixOf place && !names.contains ".git" then
      some (⟨root.components ++ names.map .name⟩, text)
    else none
  | _ => none

/-- The files below a root with their texts. Links are not followed, but for one that is the root
and leads to a directory. A root that is a file stands for itself, and the empty path for
nothing. -/
def walk (d : Disk) (root : Path) : List (Path × Option String) :=
  if root.components.isEmpty then []
  else
    match d.locate? root.text with
    | none => []
    | some base =>
      match d.node? base with
      | some .directory => d.entries.filterMap (fileBelow? root base)
      | some (.file text) => if d.isLink root then [] else [(root, text)]
      | _ => []

/-- The files below a root as a store. -/
def toStore (d : Disk) (root : Path) : FileStore :=
  let files := d.walk root.normalize
  { listing := files.map fun (path, _) => path.text
    texts := files.filterMap fun (path, text) => text.map fun t => (path, t)
    unreadable := [] }

end Disk

end StyleVars
