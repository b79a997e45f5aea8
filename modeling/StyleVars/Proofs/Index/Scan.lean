import StyleVars.Catalog.Index
import StyleVars.Proofs.Catalog.Consistency

/-!
# What a scan finds

A scan registers each of its pending files at most once, so what it has found is a consistent
catalog at every moment, in whatever order the reads complete and however the files change between
them. A scan that is not interrupted finds exactly the record of every file that the filter selects
and that can be read.
-/

namespace StyleVars

open Std

theorem nodup_eraseDups (paths : List Path) : paths.eraseDups.Nodup := by
  induction h : paths.length using Nat.strongRecOn generalizing paths with
  | ind n ih =>
    cases paths with
    | nil => simp
    | cons p rest =>
      rw [List.eraseDups_cons, List.nodup_cons]
      have hlen : (rest.filter fun q => !q == p).length < n := by
        rw [← h, List.length_cons]
        exact Nat.lt_succ_of_le (List.length_filter_le _ rest)
      refine ⟨?_, ih _ hlen _ rfl⟩
      rw [List.mem_eraseDups, List.mem_filter]
      simp

/-- What a file contributes as it is now. -/
def FileStore.record? (store : FileStore) (path : Path) : Option FileRecord :=
  (store.read? path).map (.ofText path)

namespace Scan

/-- What the scan has found is a consistent catalog, and no file is read twice. -/
structure Consistent (s : Scan) : Prop where
  found : s.found.Consistent
  pending_nodup : s.pending.Nodup
  pending_new {p : Path} : p ∈ s.pending → p ∉ s.found.records

variable {s : Scan} {path : Path}

theorem getElem?_records_read (store : FileStore) (path p : Path) :
    (s.read store path).found.records[p]? =
      if path = p then (store.record? path).or s.found.records[p]? else s.found.records[p]? := by
  unfold read FileStore.record?
  cases store.read? path with
  | none => simp
  | some text =>
    simp only [Catalog.getElem?_records_insert]
    split <;> simp

theorem Consistent.read (h : s.Consistent) (hpath : path ∈ s.pending) (store : FileStore) :
    (s.read store path).Consistent where
  found := by
    unfold Scan.read
    cases store.read? path with
    | none => exact h.found
    | some text => exact h.found.insert (h.pending_new hpath) (.ofString text)
  pending_nodup := h.pending_nodup.erase path
  pending_new {p} hp := by
    obtain ⟨hne, hmem⟩ := (h.pending_nodup.mem_erase_iff).mp hp
    rw [TreeMap.mem_iff_isSome_getElem?, getElem?_records_read, if_neg hne.symm,
      ← TreeMap.mem_iff_isSome_getElem?]
    exact h.pending_new hmem

/-- Read files one after the other, in this order. -/
def readEach (s : Scan) (store : FileStore) (order : List Path) : Scan :=
  order.foldl (fun s path => s.read store path) s

/-- Reading the pending files keeps the scan consistent, leaves none pending, and finds the record of
each as the file is now, in whatever order they are read. -/
theorem Consistent.readEach {order : List Path} (h : s.Consistent) (store : FileStore)
    (horder : order.Perm s.pending) :
    (s.readEach store order).Consistent ∧ (s.readEach store order).pending = [] ∧
      ∀ p : Path, (s.readEach store order).found.records[p]? =
        if p ∈ order then store.record? p else s.found.records[p]? := by
  induction order generalizing s with
  | nil => exact ⟨h, List.nil_perm.mp horder, fun p => by simp [Scan.readEach]⟩
  | cons path rest ih =>
    have hpath : path ∈ s.pending := horder.subset List.mem_cons_self
    have hrest : rest.Perm (s.read store path).pending :=
      (List.cons_perm_iff_perm_erase.mp horder).2
    obtain ⟨hcons, hnone, hrecords⟩ := ih (h.read hpath store) hrest
    refine ⟨hcons, hnone, fun p => (hrecords p).trans ?_⟩
    have hnew : s.found.records[path]? = none := TreeMap.getElem?_eq_none (h.pending_new hpath)
    rw [getElem?_records_read]
    by_cases hp : path = p
    · subst hp
      simp [hnew]
    · have hp' : p ≠ path := fun h => hp h.symm
      simp [hp, hp']

theorem Consistent.readAll (h : s.Consistent) (store : FileStore) :
    (s.readAll store).Consistent ∧ (s.readAll store).pending = [] ∧
      ∀ p : Path, (s.readAll store).found.records[p]? =
        if p ∈ s.pending then store.record? p else s.found.records[p]? :=
  h.readEach store (.refl s.pending)

end Scan

namespace Index

variable (ix : Index) (store : FileStore)

theorem mem_filesToScan {p : Path} :
    p ∈ ix.filesToScan store ↔
      ∃ path ∈ store.listing, FileStore.key path = p ∧ ix.filter.selects (.ofString path) := by
  simp only [filesToScan, FileStore.find, List.mem_eraseDups, List.mem_map, List.mem_filter]
  exact ⟨fun ⟨path, ⟨hl, hs⟩, hk⟩ => ⟨path, hl, hk, hs⟩,
    fun ⟨path, hl, hk, hs⟩ => ⟨path, ⟨hl, hs⟩, hk⟩⟩

theorem consistent_beginScan : (ix.beginScan store).2.Consistent where
  found := .empty
  pending_nodup := nodup_eraseDups _
  pending_new _ := by simp [beginScan, Catalog.empty]

/-- The record that a scan finds for a path, if it finds one. -/
def scannedRecord? (p : Path) : Option FileRecord :=
  if p ∈ ix.filesToScan store then store.record? p else none

/-- A scan without interruption makes the index valid and finds every file as it is. -/
theorem scan_eq {force : Bool} (h : ix.mayScan force) :
    (ix.scan store force).status = .valid ∧ (ix.scan store force).catalog.Consistent ∧
      (ix.scan store force).filter = ix.filter ∧
      ∀ p : Path, (ix.scan store force).catalog.records[p]? = ix.scannedRecord? store p := by
  obtain ⟨hcons, _, hrecords⟩ := (ix.consistent_beginScan store).readAll store
  have hscan : ix.scan store force =
      ((ix.beginScan store).1.finishScan ((ix.beginScan store).2.readAll store)).countReads
        (ix.beginScan store).2.pending.length := by
    simp [scan, h]
  rw [hscan]
  refine ⟨rfl, hcons.found.refreshed true, rfl, fun p => ?_⟩
  exact (hrecords p).trans (by simp [scannedRecord?, beginScan, Catalog.empty])

end Index

end StyleVars
