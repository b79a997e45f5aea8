import StyleVars.Proofs.Files.Store
import StyleVars.Proofs.Index.Scan

/-!
# The contents of an index

Two catalogs have the same contents when they know the same files with the same records, the same
names and the same number of uses for each. They may still differ in which file a name belongs to
and in the order of registration. For consistent catalogs the records decide everything else.

What an index should hold for a path follows from its filter and the store alone. A scan brings
every path there, and reading one file again brings that path there.
-/

namespace StyleVars

open Std

namespace Catalog

/-- The catalogs agree, but for owners and the order of registration. -/
structure SameContents (c d : Catalog) : Prop where
  files (p : Path) : p ∈ c.scanned ↔ p ∈ d.scanned
  records (p : Path) : c.records[p]? = d.records[p]?
  names (name : String) : name ∈ c.entries ↔ name ∈ d.entries
  usage (name : String) : c.usageOf name = d.usageOf name

variable {c d : Catalog}

theorem SameContents.of_records (hc : c.Consistent) (hd : d.Consistent)
    (h : ∀ p : Path, c.records[p]? = d.records[p]?) : c.SameContents d := by
  have hequiv : c.records.Equiv d.records := .of_forall_constGet?_eq h
  refine ⟨fun p => ?_, h, fun name => ?_, fun name => ?_⟩
  · rw [hc.mem_scanned p, hd.mem_scanned p, TreeMap.mem_iff_isSome_getElem?,
      TreeMap.mem_iff_isSome_getElem?, h p]
  · rw [hc.mem_entries_iff, hd.mem_entries_iff]
    simp only [h]
  · rw [hc.usageOf_eq_sum, hd.usageOf_eq_sum, hequiv.toList_eq]

end Catalog

namespace Index

variable {ix : Index} {store : FileStore}

theorem mem_filesToScan_iff {p : Path} :
    p ∈ ix.filesToScan store ↔ p ∈ store.listing.map FileStore.key ∧ ix.filter.selects p := by
  rw [mem_filesToScan, List.mem_map]
  constructor
  · rintro ⟨path, hlisted, rfl, hselected⟩
    refine ⟨⟨path, hlisted, rfl⟩, ?_⟩
    rw [FileStore.key, PathFilter.selects_normalize]
    exact hselected
  · rintro ⟨⟨path, hlisted, rfl⟩, hselected⟩
    rw [FileStore.key, PathFilter.selects_normalize] at hselected
    exact ⟨path, hlisted, rfl, hselected⟩

theorem normal_of_mem_filesToScan {p : Path} (h : p ∈ ix.filesToScan store) :
    p.normalize = p ∧ ix.filter.selects p := by
  obtain ⟨hlisted, hselected⟩ := mem_filesToScan_iff.mp h
  obtain ⟨path, _, rfl⟩ := List.mem_map.mp hlisted
  exact ⟨FileStore.normalize_key path, hselected⟩

theorem scannedRecord?_congr {other : Index} (h : other.filter = ix.filter) (store : FileStore) :
    other.scannedRecord? store = ix.scannedRecord? store := by
  have hfiles : other.filesToScan store = ix.filesToScan store := by simp [filesToScan, h]
  funext p
  rw [scannedRecord?, scannedRecord?, hfiles]

/-- The index knows exactly the files that a scan would find now, as they are now. -/
def UpToDate (ix : Index) (store : FileStore) : Prop :=
  ∀ p : Path, ix.catalog.records[p]? = ix.scannedRecord? store p

theorem upToDate_scan {force : Bool} (h : ix.mayScan force) :
    (ix.scan store force).UpToDate store := by
  obtain ⟨_, _, hfilter, hrecords⟩ := ix.scan_eq store h
  intro p
  rw [hrecords, scannedRecord?_congr hfilter store]

/-- What reading a file again finds at its path. Unlike a scan it does not ask whether the path is
listed. -/
def readRecord? (ix : Index) (store : FileStore) (p : Path) : Option FileRecord :=
  if p.normalize = p ∧ ix.filter.selects p then store.record? p else none

/-- Where all texts are listed, a scan finds what reading each file finds. -/
theorem scannedRecord?_eq (ix : Index) (h : store.Listed) (p : Path) :
    ix.scannedRecord? store p = ix.readRecord? store p := by
  rw [scannedRecord?, readRecord?]
  by_cases hmem : p ∈ ix.filesToScan store
  · rw [if_pos hmem, if_pos (normal_of_mem_filesToScan hmem)]
  · rw [if_neg hmem]
    split
    · rename_i hp
      cases hread : store.read? p with
      | none => simp [FileStore.record?, hread]
      | some text =>
        have hlisted := FileStore.mem_listing_of_read? h hread
        rw [hp.1] at hlisted
        exact absurd (mem_filesToScan_iff.mpr ⟨hlisted, hp.2⟩) hmem
    · rfl

/-- A change elsewhere does not matter to a path. -/
theorem readRecord?_change (ix : Index) (store : FileStore) {c : FileChange} {p : Path}
    (hne : c.path ≠ p) : ix.readRecord? (store.change c) p = ix.readRecord? store p := by
  rw [readRecord?, readRecord?]
  split
  · rename_i hp
    rw [FileStore.record?, store.read?_change_of_ne (by rwa [hp.1]), FileStore.record?]
  · rfl

theorem getElem?_records_remove (path p : Path) :
    (ix.remove path).1.catalog.records[p]? =
      if path.normalize = p then none else ix.catalog.records[p]? := by
  rw [remove]
  split
  · exact Catalog.getElem?_records_replace _ _ _ _
  · rename_i hnot
    split
    · rename_i heq
      rw [← heq]
      exact TreeMap.getElem?_eq_none_of_contains_eq_false (Bool.eq_false_iff.mpr hnot)
    · rfl

theorem getElem?_records_reread (store : FileStore) (path p : Path) :
    (ix.update store path).catalog.records[p]? =
      if path.normalize = p then ix.readRecord? store p else ix.catalog.records[p]? := by
  rw [readRecord?, update]
  split
  · rename_i hselected
    rw [refresh, Catalog.getElem?_records_replace]
    split
    · rename_i heq
      subst heq
      simp only [Path.normalize_normalize, hselected]
      rfl
    · rfl
  · rename_i hnot
    rw [getElem?_records_remove, Path.normalize_normalize]
    split
    · rename_i heq
      subst heq
      simp [hnot]
    · rfl

end Index

end StyleVars
