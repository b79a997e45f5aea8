import Std.Data.TreeMap
import StyleVars.Path.Basic
import StyleVars.Sheet.Reader

/-!
# The catalog of variables

A catalog knows the variables that the files of a workspace define and how often they are used. A
name belongs to the first file that was registered with a definition of it, and to the first
definition in that file. Files are kept with all they contribute, so that one of them can be taken
out or read again without the others: the names that it owned then go to the first of the remaining
files that defines them.
-/

namespace StyleVars

/-- A definition of a variable in a file. -/
structure Variable where
  name : String
  value : String
  file : Path
  range : Range
deriving Repr, DecidableEq

def Variable.isColor (v : Variable) : Bool := Color.isColor v.value

/-- How often names are used, for those that are. -/
abbrev UsageCounts := Std.TreeMap String Nat

namespace UsageCounts

/-- How often a name is used. -/
def total (u : UsageCounts) (name : String) : Nat := u[name]?.getD 0

/-- Count `n` more uses of a name. -/
def add (u : UsageCounts) (name : String) (n : Nat) : UsageCounts :=
  u.alter name fun count => some (count.getD 0 + n)

/-- Count `n` uses of a name less. A name without any uses is left out. -/
def subtract (u : UsageCounts) (name : String) (n : Nat) : UsageCounts :=
  u.alter name fun
    | some count => if count - n = 0 then none else some (count - n)
    | none => none

/-- Count each name once for each time that it is listed. -/
def ofNames (names : List String) : UsageCounts := names.foldl (fun u name => u.add name 1) ∅

def addAll (u more : UsageCounts) : UsageCounts := more.foldl add u

def subtractAll (u less : UsageCounts) : UsageCounts := less.foldl subtract u

end UsageCounts

/-- What one file contributes: the variables it defines, also those that belong to other files, and
how often it uses each name. -/
structure FileRecord where
  defined : List Variable
  usage : UsageCounts

namespace FileRecord

def ofSheet (path : Path) (sheet : Sheet) : FileRecord where
  defined := sheet.definitions.map fun d => ⟨d.property.text, d.value.text, path, d.range⟩
  usage := .ofNames (sheet.usages.map (·.reference.name))

/-- What a file with this text contributes. -/
def ofText (path : Path) (text : String) : FileRecord := ofSheet path (.ofString text)

/-- The first definition of a name. -/
def find? (r : FileRecord) (name : String) : Option Variable := r.defined.find? (·.name == name)

end FileRecord

structure Catalog where
  /-- The definition that each name belongs to. -/
  entries : Std.TreeMap String Variable
  /-- What each file contributes. -/
  records : Std.TreeMap Path FileRecord
  /-- The files in the order of their registration. -/
  scanned : List Path
  /-- How often each name is used in all files. -/
  usage : UsageCounts
  /-- Whether anything has been registered or taken out since the catalog was made. -/
  refreshed : Bool

/-- A variable with how often it is used and, where that is known, what its value comes to. -/
structure VariableInfo where
  entry : Variable
  usage : Nat
  resolved : Option String
deriving Repr, DecidableEq

namespace Catalog

def empty : Catalog := ⟨∅, ∅, [], ∅, false⟩

/-- Give a name to a definition, unless it belongs to one already. -/
def assign (entries : Std.TreeMap String Variable) (v : Variable) : Std.TreeMap String Variable :=
  entries.insertIfNew v.name v

/-- Register a file. Names that belong to other files stay there. -/
def insert (c : Catalog) (path : Path) (r : FileRecord) : Catalog where
  entries := r.defined.foldl assign c.entries
  records := c.records.insert path r
  scanned := if c.scanned.contains path then c.scanned else c.scanned ++ [path]
  usage := c.usage.addAll r.usage
  refreshed := c.refreshed

def contains (c : Catalog) (path : Path) : Bool := c.records.contains path

/-- Take a name away from the file at `path`, if it belongs there, and note it as orphaned. -/
def orphan (path : Path) (state : Std.TreeMap String Variable × List String) (v : Variable) :
    Std.TreeMap String Variable × List String :=
  match state.1[v.name]? with
  | some owner => if owner.file = path then (state.1.erase v.name, state.2 ++ [v.name]) else state
  | none => state

/-- Take out a file. Gives back the names that belonged to it, in the order of its definitions. -/
def erase (c : Catalog) (path : Path) : Catalog × List String :=
  match c.records[path]? with
  | none => (c, [])
  | some r =>
    let (entries, orphaned) := r.defined.foldl (orphan path) (c.entries, [])
    ({ c with
        entries
        records := c.records.erase path
        scanned := c.scanned.filter (· != path)
        usage := c.usage.subtractAll r.usage },
      orphaned)

/-- The definition of a name in a file. -/
def definition? (c : Catalog) (name : String) (path : Path) : Option Variable :=
  c.records[path]?.bind (·.find? name)

/-- Give a name that belongs to no file to the first file that defines it. -/
def adopt (c : Catalog) (name : String) : Catalog :=
  if c.entries.contains name then c
  else
    match c.scanned.findSome? (c.definition? name) with
    | some v => { c with entries := c.entries.insert name v }
    | none => c

/-- Put what a file contributes now in place of what it contributed, if it contributes anything. -/
def replace (c : Catalog) (path : Path) (record : Option FileRecord) : Catalog :=
  let (rest, orphaned) := c.erase path
  let registered := match record with
    | some r => rest.insert path r
    | none => rest
  { orphaned.foldl adopt registered with refreshed := true }

def size (c : Catalog) : Nat := c.entries.size

def usageOf (c : Catalog) (name : String) : Nat := c.usage.total name

/-- The variable with a name, and how often it is used. -/
def get? (c : Catalog) (name : String) : Option VariableInfo :=
  c.entries[name]?.map fun v => ⟨v, c.usageOf name, none⟩

/-- All variables, ordered by name. -/
def all (c : Catalog) : List VariableInfo :=
  c.entries.toList.filterMap fun (name, _) => c.get? name

def names (c : Catalog) : List String := c.entries.keys

def owner? (c : Catalog) (name : String) : Option Path := c.entries[name]?.map (·.file)

/-- The variables that a file defines, also those that belong to other files. -/
def definedIn (c : Catalog) (path : Path) : List Variable :=
  match c.records[path.normalize]? with
  | some r => r.defined
  | none => []

end Catalog

end StyleVars
