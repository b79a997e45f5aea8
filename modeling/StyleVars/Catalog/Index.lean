import StyleVars.Catalog.Basic
import StyleVars.Files.Store

/-!
# The index

The index keeps the catalog of a workspace in step with its files. A scan rebuilds the catalog from
all files that the filter selects. It has a start, one read for each file, and a finish, and other
changes may come between them. What changes while a scan runs may be missing from what the scan
finds, so the index is then left invalid when the scan finishes.

A scan is not begun while one runs, nor when the index is valid and none is forced. Every change of
the catalog counts up the generation of the index.
-/

namespace StyleVars

inductive IndexStatus where
  | empty
  | scanning
  | valid
  | invalid
deriving Repr, DecidableEq

structure Index where
  status : IndexStatus
  catalog : Catalog
  filter : PathFilter
  /-- Whether something changed since the running scan was begun. -/
  stale : Bool
  /-- How often the catalog changed. -/
  generation : Nat
  /-- How often a file was read. -/
  reads : Nat

/-- A scan between its start and its finish. -/
structure Scan where
  /-- The files that are still to be read. -/
  pending : List Path
  /-- What the files read so far contribute. -/
  found : Catalog

namespace Scan

/-- Read one of the pending files, as it is now. A file that cannot be read contributes nothing. -/
def read (s : Scan) (store : FileStore) (path : Path) : Scan where
  pending := s.pending.erase path
  found :=
    match store.read? path with
    | some text => s.found.insert path (.ofText path text)
    | none => s.found

/-- Read all pending files in their order. -/
def readAll (s : Scan) (store : FileStore) : Scan :=
  s.pending.foldl (fun s path => s.read store path) s

end Scan

namespace Index

def empty (filter : PathFilter) : Index := ⟨.empty, .empty, filter, false, 0, 0⟩

/-- Whether the running scan is stale once something has changed. -/
def staleAfterChange (ix : Index) : Bool := ix.stale || ix.status == .scanning

/-- Count reads of files. -/
def countReads (ix : Index) (n : Nat) : Index := { ix with reads := ix.reads + n }

/-- Mark the index as out of date. An index that is not in use stays as it is. -/
def invalidate (ix : Index) : Index :=
  match ix.status with
  | .scanning => { ix with stale := true }
  | .valid => { ix with status := .invalid }
  | .empty => ix
  | .invalid => ix

def setFilter (ix : Index) (filter : PathFilter) : Index := { ix with filter }.invalidate

/-- The files that a scan reads: those that the filter selects, each once. -/
def filesToScan (ix : Index) (store : FileStore) : List Path :=
  ((store.find ix.filter).map FileStore.key).eraseDups

/-- Whether a scan is begun when it is asked for. -/
def mayScan (ix : Index) (force : Bool) : Bool :=
  match ix.status with
  | .scanning => false
  | .valid => force
  | .empty => true
  | .invalid => true

/-- Begin a scan. -/
def beginScan (ix : Index) (store : FileStore) : Index × Scan :=
  ({ ix with status := .scanning, stale := false }, ⟨ix.filesToScan store, .empty⟩)

/-- Finish a scan: what it found takes the place of the catalog. -/
def finishScan (ix : Index) (s : Scan) : Index :=
  { ix with
    status := if ix.stale then .invalid else .valid
    catalog := { s.found with refreshed := true }
    stale := false
    generation := ix.generation + 1 }

/-- Scan all files without interruption, if a scan is due. -/
def scan (ix : Index) (store : FileStore) (force : Bool) : Index :=
  if ix.mayScan force then
    let (begun, s) := ix.beginScan store
    (begun.finishScan (s.readAll store)).countReads s.pending.length
  else ix

/-- Take out a file. Gives back whether it was in the catalog. -/
def remove (ix : Index) (path : Path) : Index × Bool :=
  if ix.catalog.contains path.normalize then
    ({ ix with
        stale := ix.staleAfterChange
        catalog := ix.catalog.replace path.normalize none
        generation := ix.generation + 1 },
      true)
  else (ix, false)

/-- Put what was read of a file in place of what it contributed. -/
def refresh (ix : Index) (path : Path) (text : Option String) : Index :=
  { ix with
    stale := ix.staleAfterChange
    catalog := ix.catalog.replace path (text.map (.ofText path))
    generation := ix.generation + 1
    reads := ix.reads + 1 }

/-- Read a file again. A file that the filter does not select, or that cannot be read, is taken
out. -/
def update (ix : Index) (store : FileStore) (path : Path) : Index :=
  let path := path.normalize
  if ix.filter.selects path then ix.refresh path (store.read? path) else (ix.remove path).1

/-- Drop everything. A scan that runs is not stopped. -/
def dispose (ix : Index) : Index :=
  { ix with status := .empty, catalog := .empty, stale := false, generation := ix.generation + 1 }

end Index

end StyleVars
