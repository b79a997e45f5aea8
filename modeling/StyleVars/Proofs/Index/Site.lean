import StyleVars.Proofs.Index.Scan

/-!
# An index at work

A site is an index over a store of files, together with the scans that have begun and not finished.
What happens to it is a list of actions in any order: files change, scans begin, read and finish,
and files are updated, removed or refreshed between the steps of a scan. Nothing ties an update to
the change it answers, so every race between the two is among the lists.

The main result is that the catalog is consistent at every moment of every such run.
-/

namespace StyleVars

open Std

structure Site where
  index : Index
  store : FileStore
  /-- The scans between their start and their finish, oldest first. -/
  scans : List Scan

namespace Site

inductive Action where
  | write (path text : String)
  | list (path : String)
  | delete (path : String)
  | setUnreadable (path : String) (on : Bool)
  /-- A scan without interruption. -/
  | scan (force : Bool)
  | beginScan (force : Bool)
  /-- The read of one pending file of the scan with this number completes. -/
  | read (n : Nat) (path : Path)
  /-- The scan with this number finishes, if it has read all its files. -/
  | finishScan (n : Nat)
  | update (path : Path)
  /-- The end of an update whose read gave this text, at whatever time that was. -/
  | refresh (path : Path) (text : Option String)
  | remove (path : Path)
  | invalidate
  | setFilter (filter : PathFilter)
  | dispose

/-- An index that holds nothing yet. -/
def start (filter : PathFilter) (store : FileStore) : Site := ⟨.empty filter, store, []⟩

def beginScan (s : Site) (force : Bool) : Site :=
  if s.index.mayScan force then
    let (index, scan) := s.index.beginScan s.store
    { s with index, scans := s.scans ++ [scan] }
  else s

def read (s : Site) (n : Nat) (path : Path) : Site :=
  match s.scans[n]? with
  | some scan =>
    if scan.pending.contains path then
      { s with index := s.index.countReads 1, scans := s.scans.set n (scan.read s.store path) }
    else s
  | none => s

def finishScan (s : Site) (n : Nat) : Site :=
  match s.scans[n]? with
  | some scan =>
    if scan.pending.isEmpty then
      { s with index := s.index.finishScan scan, scans := s.scans.eraseIdx n }
    else s
  | none => s

/-- Let one action happen. One that cannot happen changes nothing. -/
def step (s : Site) : Action → Site
  | .write path text => { s with store := s.store.write path text }
  | .list path => { s with store := s.store.list path }
  | .delete path => { s with store := s.store.delete path }
  | .setUnreadable path on => { s with store := s.store.setUnreadable path on }
  | .scan force => { s with index := s.index.scan s.store force }
  | .beginScan force => s.beginScan force
  | .read n path => s.read n path
  | .finishScan n => s.finishScan n
  | .update path => { s with index := s.index.update s.store path }
  | .refresh path text => { s with index := s.index.refresh path text }
  | .remove path => { s with index := (s.index.remove path).1 }
  | .invalidate => { s with index := s.index.invalidate }
  | .setFilter filter => { s with index := s.index.setFilter filter }
  | .dispose => { s with index := s.index.dispose }

def run (s : Site) (actions : List Action) : Site := actions.foldl step s

end Site

namespace Index

variable {ix : Index}

@[simp] theorem catalog_invalidate : ix.invalidate.catalog = ix.catalog := by
  unfold invalidate
  split <;> rfl

@[simp] theorem filter_invalidate : ix.invalidate.filter = ix.filter := by
  unfold invalidate
  split <;> rfl

@[simp] theorem catalog_setFilter (filter : PathFilter) :
    (ix.setFilter filter).catalog = ix.catalog := by
  simp [setFilter]

@[simp] theorem filter_remove (path : Path) : (ix.remove path).1.filter = ix.filter := by
  rw [remove]
  split <;> rfl

@[simp] theorem filter_update (store : FileStore) (path : Path) :
    (ix.update store path).filter = ix.filter := by
  rw [update]
  split
  · rfl
  · exact filter_remove _

@[simp] theorem status_remove (path : Path) : (ix.remove path).1.status = ix.status := by
  rw [remove]
  split <;> rfl

@[simp] theorem status_update (store : FileStore) (path : Path) :
    (ix.update store path).status = ix.status := by
  rw [update]
  split
  · rfl
  · exact status_remove _

theorem consistent_scan (h : ix.catalog.Consistent) (store : FileStore) (force : Bool) :
    (ix.scan store force).catalog.Consistent := by
  by_cases hmay : ix.mayScan force
  · exact (ix.scan_eq store hmay).2.1
  · simpa [scan, hmay] using h

theorem consistent_remove (h : ix.catalog.Consistent) (path : Path) :
    (ix.remove path).1.catalog.Consistent := by
  unfold remove
  split
  · exact h.replace path.normalize none
  · exact h

theorem consistent_update (h : ix.catalog.Consistent) (store : FileStore) (path : Path) :
    (ix.update store path).catalog.Consistent := by
  unfold update
  dsimp only
  split
  · exact h.replace path.normalize _
  · exact consistent_remove h path.normalize

end Index

namespace Site

/-- The catalog and what every running scan has found are consistent. -/
structure Consistent (s : Site) : Prop where
  catalog : s.index.catalog.Consistent
  scans {scan : Scan} : scan ∈ s.scans → scan.Consistent

variable {s : Site}

theorem Consistent.beginScan (h : s.Consistent) (force : Bool) :
    (s.beginScan force).Consistent := by
  unfold Site.beginScan
  split
  · refine ⟨h.catalog, fun hscan => ?_⟩
    rcases List.mem_append.mp hscan with hold | hnew
    · exact h.scans hold
    · rw [List.mem_singleton.mp hnew]
      exact s.index.consistent_beginScan s.store
  · exact h

theorem Consistent.read (h : s.Consistent) (n : Nat) (path : Path) :
    (s.read n path).Consistent := by
  unfold Site.read
  split
  · rename_i scan hscan
    split
    · rename_i hpath
      refine ⟨h.catalog, fun hmem => ?_⟩
      rcases List.mem_or_eq_of_mem_set hmem with hold | rfl
      · exact h.scans hold
      · exact (h.scans (List.mem_of_getElem? hscan)).read (by simpa using hpath) s.store
    · exact h
  · exact h

theorem Consistent.finishScan (h : s.Consistent) (n : Nat) : (s.finishScan n).Consistent := by
  unfold Site.finishScan
  split
  · rename_i scan hscan
    split
    · exact ⟨(h.scans (List.mem_of_getElem? hscan)).found.refreshed true,
        fun hmem => h.scans (List.mem_of_mem_eraseIdx hmem)⟩
    · exact h
  · exact h

theorem Consistent.step (h : s.Consistent) (a : Action) : (s.step a).Consistent := by
  cases a with
  | write path text => exact ⟨h.catalog, h.scans⟩
  | list path => exact ⟨h.catalog, h.scans⟩
  | delete path => exact ⟨h.catalog, h.scans⟩
  | setUnreadable path on => exact ⟨h.catalog, h.scans⟩
  | scan force => exact ⟨Index.consistent_scan h.catalog s.store force, h.scans⟩
  | beginScan force => exact h.beginScan force
  | read n path => exact h.read n path
  | finishScan n => exact h.finishScan n
  | update path => exact ⟨Index.consistent_update h.catalog s.store path, h.scans⟩
  | refresh path text => exact ⟨h.catalog.replace path text, h.scans⟩
  | remove path => exact ⟨Index.consistent_remove h.catalog path, h.scans⟩
  | invalidate =>
    refine ⟨?_, h.scans⟩
    simpa [Site.step] using h.catalog
  | setFilter filter =>
    refine ⟨?_, h.scans⟩
    simpa [Site.step] using h.catalog
  | dispose => exact ⟨.empty, h.scans⟩

theorem Consistent.run (h : s.Consistent) (actions : List Action) : (s.run actions).Consistent := by
  induction actions generalizing s with
  | nil => exact h
  | cons a rest ih => exact ih (h.step a)

theorem consistent_start (filter : PathFilter) (store : FileStore) :
    (start filter store).Consistent := ⟨.empty, fun hmem => by cases hmem⟩

/-- After any run the four forms of the catalog describe the same files. Paths are registered once
and have records. A name has an entry exactly when a record defines it, and the entry is the first
definition in the record of a registered file. Uses are counted as in the records, without entries
for names that are not used; so what a file takes away when it is taken out was always counted. -/
theorem run_catalog_forms_agree (filter : PathFilter) (store : FileStore)
    (actions : List Action) :
    let c := ((start filter store).run actions).index.catalog
    (c.scanned.Nodup ∧ ∀ p, p ∈ c.scanned ↔ p ∈ c.records) ∧
      (∀ name, name ∈ c.entries ↔
        ∃ (p : Path) (r : FileRecord), c.records[p]? = some r ∧ ∃ v ∈ r.defined, v.name = name) ∧
      (∀ (name : String) (v : Variable), c.entries[name]? = some v → v.file ∈ c.scanned ∧
        ∃ r, c.records[v.file]? = some r ∧ r.defined.find? (·.name == name) = some v) ∧
      (∀ name, c.usageOf name = (c.records.toList.map fun e => e.2.usage.total name).sum ∧
        (c.usageOf name = 0 → name ∉ c.usage)) ∧
      (∀ (p : Path) (r : FileRecord) (name : String), c.records[p]? = some r →
        r.usage.total name ≤ c.usageOf name) := by
  intro c
  have h : c.Consistent := ((consistent_start filter store).run actions).catalog
  exact ⟨⟨h.scanned_nodup, h.mem_scanned⟩, h.mem_entries_iff, h.entry_first_of_scanned,
    fun name => ⟨h.usageOf_eq_sum name, h.not_mem_usage⟩, fun p r name => h.usage_le⟩

end Site

end StyleVars
