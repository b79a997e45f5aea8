import StyleVars.Glob.Compiler
import StyleVars.Proofs.Index.Contents
import StyleVars.Proofs.Index.Site

/-!
# Changes during a scan

A scan reads each file as it is at that moment, so a change that comes after the read is missing
from what the scan finds. The change is announced to the index, by an update where a file was
written and by a removal where one was deleted, and the announcement is what makes the scan stale.

An update of a file that the filter selects always makes the scan stale. A removal does so only if
the old catalog has the file. Hence a scan that is not stale at its finish may still have found a
file that is gone: one that was new to it, read, and then deleted. The main result is that nothing
else can be lost.
-/

namespace StyleVars

open Std

namespace Site

namespace Action

/-- What may happen while a scan runs. -/
def duringScan : Action → Bool
  | .write _ _ | .delete _ | .read _ _ | .update _ | .refresh _ _ | .remove _ | .invalidate
  | .setFilter _ => true
  | _ => false

/-- Whether the action writes the file at `p`. -/
def writes (p : Path) : Action → Bool
  | .write path _ => FileStore.key path = p
  | _ => false

def deletes (p : Path) : Action → Bool
  | .delete path => FileStore.key path = p
  | _ => false

/-- Whether the oldest running scan reads `p`. -/
def reads (p : Path) : Action → Bool
  | .read 0 path => path = p
  | _ => false

def updates (p : Path) : Action → Bool
  | .update path => path.normalize = p
  | .refresh path _ => path = p
  | _ => false

def removes (p : Path) : Action → Bool
  | .remove path => path.normalize = p
  | _ => false

/-- Whether the action marks the whole index as out of date. -/
def invalidates : Action → Bool
  | .invalidate | .setFilter _ => true
  | _ => false

/-- Whether the action is a change that one of the later actions announces, or no change. -/
def announcedIn (later : List Action) : Action → Bool
  | .write path _ => later.any (·.updates (FileStore.key path))
  | .delete path => later.any (·.removes (FileStore.key path))
  | _ => true

/-- Whether the action can leave a running scan under `filter` as it is. -/
def quiet (filter : PathFilter) : Action → Bool
  | .update path => !filter.selects path.normalize
  | .refresh _ _ | .invalidate | .setFilter _ => false
  | _ => true

end Action

/-- Every change is announced later. -/
def announced : List Action → Bool
  | [] => true
  | a :: rest => a.announcedIn rest && announced rest

/-- Whether the scan reads `p` before anything deletes it. -/
def readFirst (p : Path) : List Action → Bool
  | [] => false
  | a :: rest => a.reads p || (!a.deletes p && readFirst p rest)

variable {s : Site} {a : Action} {actions : List Action} {p : Path}

/-! ## What makes a scan stale -/

theorem stale_of_stale_remove {ix : Index} (path : Path) (h : (ix.remove path).1.stale = false) :
    ix.stale = false := by
  rw [Index.remove] at h
  split at h
  · simpa [Index.staleAfterChange] using (Bool.or_eq_false_iff.mp h).1
  · exact h

theorem stale_refresh {ix : Index} (hscanning : ix.status = .scanning) (path : Path)
    (text : Option String) : (ix.refresh path text).stale = true := by
  simp [Index.refresh, Index.staleAfterChange, hscanning]

theorem index_read (s : Site) (n : Nat) (path : Path) :
    (s.read n path).index.status = s.index.status ∧ (s.read n path).index.stale = s.index.stale ∧
      (s.read n path).index.filter = s.index.filter := by
  rw [read]
  split
  · split
    · exact ⟨rfl, rfl, rfl⟩
    · exact ⟨rfl, rfl, rfl⟩
  · exact ⟨rfl, rfl, rfl⟩

theorem status_step (hscanning : s.index.status = .scanning) (ha : a.duringScan) :
    (s.step a).index.status = .scanning := by
  cases a with
  | write path text => exact hscanning
  | delete path => exact hscanning
  | read n path => exact (s.index_read n path).1.trans hscanning
  | update path => exact (Index.status_update _ _).trans hscanning
  | refresh path text => exact hscanning
  | remove path => exact (Index.status_remove _).trans hscanning
  | invalidate => simp [step, Index.invalidate, hscanning]
  | setFilter filter => simp [step, Index.setFilter, Index.invalidate, hscanning]
  | list | setUnreadable | scan | beginScan | finishScan | dispose => cases ha

/-- A scan that is not stale after an action was not stale before it, and the action was quiet. -/
theorem stale_step (hscanning : s.index.status = .scanning) (ha : a.duringScan)
    (hstale : (s.step a).index.stale = false) :
    s.index.stale = false ∧ (s.step a).index.filter = s.index.filter ∧ a.quiet s.index.filter := by
  cases a with
  | write path text => exact ⟨hstale, rfl, rfl⟩
  | delete path => exact ⟨hstale, rfl, rfl⟩
  | read n path =>
    obtain ⟨_, hsame, hfilter⟩ := s.index_read n path
    exact ⟨hsame.symm.trans hstale, hfilter, rfl⟩
  | update path =>
    have hnot : ¬ s.index.filter.selects path.normalize := by
      intro hselected
      simp [step, Index.update, hselected, stale_refresh hscanning] at hstale
    refine ⟨stale_of_stale_remove path.normalize ?_, Index.filter_update _ _, ?_⟩
    · simpa [step, Index.update, hnot] using hstale
    · simpa [Action.quiet] using hnot
  | refresh path text => simp [step, stale_refresh hscanning] at hstale
  | remove path => exact ⟨stale_of_stale_remove path hstale, Index.filter_remove _, rfl⟩
  | invalidate => simp [step, Index.invalidate, hscanning] at hstale
  | setFilter filter => simp [step, Index.setFilter, Index.invalidate, hscanning] at hstale
  | list | setUnreadable | scan | beginScan | finishScan | dispose => cases ha

/-- Once a scan is stale it stays so; if it is not stale at the end, all was quiet. -/
theorem stale_run (hscanning : s.index.status = .scanning) (hduring : ∀ a ∈ actions, a.duringScan)
    (hstale : (s.run actions).index.stale = false) :
    s.index.stale = false ∧ (s.run actions).index.filter = s.index.filter ∧
      ∀ a ∈ actions, a.quiet s.index.filter := by
  induction actions generalizing s with
  | nil => exact ⟨hstale, rfl, fun a ha => by cases ha⟩
  | cons a rest ih =>
    rw [List.forall_mem_cons] at hduring
    obtain ⟨hstep, hfilter, hrest⟩ := ih (status_step hscanning hduring.1) hduring.2 hstale
    obtain ⟨hbefore, hfilter', hquiet⟩ := stale_step hscanning hduring.1 hstep
    refine ⟨hbefore, hfilter.trans hfilter', List.forall_mem_cons.mpr ⟨hquiet, ?_⟩⟩
    rwa [hfilter'] at hrest

theorem not_invalidates_of_quiet {filter : PathFilter} (h : a.quiet filter) :
    a.invalidates = false := by
  cases a with
  | invalidate | setFilter filter => cases h
  | _ => rfl

/-- In a quiet scan no file is written that the filter selects: its update would not be quiet. -/
theorem not_writes_of_selects {filter : PathFilter} (hann : announced actions)
    (hquiet : ∀ a ∈ actions, a.quiet filter) (hselects : filter.selects p) :
    ∀ a ∈ actions, a.writes p = false := by
  induction actions with
  | nil => exact fun a ha => by cases ha
  | cons first rest ih =>
    rw [List.forall_mem_cons] at hquiet ⊢
    obtain ⟨hfirst, hrest⟩ := Bool.and_eq_true_iff.mp hann
    refine ⟨?_, ih hrest hquiet.2⟩
    cases first with
    | write path text =>
      obtain ⟨later, hlater, hupdates⟩ := List.any_eq_true.mp hfirst
      have hq := hquiet.2 later hlater
      cases later with
      | update other =>
        have hother : other.normalize = FileStore.key path := by
          simpa [Action.updates] using hupdates
        have hunselected : filter.selects (FileStore.key path) = false := by
          simpa [Action.quiet, hother] using hq
        have hne : FileStore.key path ≠ p := by
          rintro rfl
          rw [hselects] at hunselected
          cases hunselected
        simpa [Action.writes] using hne
      | refresh other text => cases hq
      | _ => cases hupdates
    | _ => rfl

/-! ## What a scan finds of a path -/

/-- What an action that does not write `p` does to the file there. -/
theorem store_step (ha : a.duringScan) (hwrites : a.writes p = false) (hp : p.normalize = p) :
    (s.step a).store.record? p = (if a.deletes p then none else s.store.record? p) ∧
      (p ∈ (s.step a).store.listing.map FileStore.key ↔
        p ∈ s.store.listing.map FileStore.key ∧ a.deletes p = false) := by
  cases a with
  | write path text =>
    have hne : FileStore.key path ≠ p := by simpa [Action.writes] using hwrites
    constructor
    · simp [step, Action.deletes, FileStore.record?,
        s.store.read?_write_of_ne text (hne.trans_eq hp.symm)]
    · exact (s.store.mem_listing_write_of_ne text hne).trans (by simp [Action.deletes])
  | delete path =>
    refine ⟨?_, (s.store.mem_listing_delete path).trans (by simp [Action.deletes])⟩
    by_cases heq : FileStore.key path = p
    · subst heq
      simp [step, Action.deletes, FileStore.record?, s.store.read?_delete_self path]
    · have hne : FileStore.key path ≠ p.normalize := by rwa [hp]
      simp [step, Action.deletes, heq, FileStore.record?, s.store.read?_delete_of_ne hne]
  | read n path =>
    have hstore : (s.read n path).store = s.store := by
      rw [read]
      split
      · split <;> rfl
      · rfl
    simp [step, hstore, Action.deletes]
  | update path | refresh path text | remove path | invalidate | setFilter filter =>
    simp [step, Action.deletes]
  | list | setUnreadable | scan | beginScan | finishScan | dispose => cases ha

/-- What an action does to the one scan that runs. -/
theorem scans_step {scan : Scan} (ha : a.duringScan) (hscans : s.scans = [scan])
    (hscan : scan.Consistent) :
    ∃ next : Scan, (s.step a).scans = [next] ∧ next.Consistent ∧
      ∀ p : Path, (p ∈ next.pending ↔ p ∈ scan.pending ∧ a.reads p = false) ∧
        next.found.records[p]? =
          if p ∈ scan.pending ∧ a.reads p then s.store.record? p else scan.found.records[p]? := by
  cases a with
  | read n path =>
    by_cases hread : n = 0 ∧ path ∈ scan.pending
    · obtain ⟨rfl, hmem⟩ := hread
      refine ⟨scan.read s.store path, by simp [step, read, hscans, hmem], hscan.read hmem _,
        fun p => ⟨?_, ?_⟩⟩
      · simp [Scan.read, hscan.pending_nodup.mem_erase_iff, Action.reads, and_comm, eq_comm]
      · rw [Scan.getElem?_records_read]
        by_cases hpath : path = p
        · subst hpath
          simp [hmem, Action.reads, TreeMap.getElem?_eq_none (hscan.pending_new hmem)]
        · simp [hpath, Action.reads]
    · refine ⟨scan, ?_, hscan, fun p => ?_⟩
      · cases n with
        | zero =>
          have hnot : path ∉ scan.pending := fun hmem => hread ⟨rfl, hmem⟩
          simp [step, read, hscans, hnot]
        | succ n => simp [step, read, hscans]
      · have hnone (hmem : p ∈ scan.pending) : (Action.read n path).reads p = false := by
          cases n with
          | zero =>
            have hne : path ≠ p := by
              rintro rfl
              exact hread ⟨rfl, hmem⟩
            simpa [Action.reads] using hne
          | succ n => rfl
        by_cases hmem : p ∈ scan.pending
        · simp [hmem, hnone hmem]
        · simp [hmem]
  | write path text | delete path | update path | refresh path text | remove path | invalidate
  | setFilter filter => exact ⟨scan, hscans, hscan, fun p => by simp [Action.reads]⟩
  | list | setUnreadable | scan | beginScan | finishScan | dispose => cases ha

theorem store_run (hduring : ∀ a ∈ actions, a.duringScan) (hp : p.normalize = p)
    (hwrites : ∀ a ∈ actions, a.writes p = false) :
    (s.run actions).store.record? p =
        (if actions.any (·.deletes p) then none else s.store.record? p) ∧
      (p ∈ (s.run actions).store.listing.map FileStore.key ↔
        p ∈ s.store.listing.map FileStore.key ∧ actions.any (·.deletes p) = false) := by
  induction actions generalizing s with
  | nil => simp [run]
  | cons a rest ih =>
    rw [List.forall_mem_cons] at hduring hwrites
    obtain ⟨hrecord, hlisted⟩ := store_step (s := s) hduring.1 hwrites.1 hp
    obtain ⟨hrecord', hlisted'⟩ := ih (s := s.step a) hduring.2 hwrites.2
    constructor
    · refine hrecord'.trans ?_
      rw [hrecord, List.any_cons]
      cases a.deletes p <;> simp
    · refine hlisted'.trans ?_
      rw [hlisted, List.any_cons, Bool.or_eq_false_iff, and_assoc]

/-- The scan finds a pending file as it was at the start, unless the file was deleted before it was
read. -/
theorem scans_run {scan : Scan} (hduring : ∀ a ∈ actions, a.duringScan) (hscans : s.scans = [scan])
    (hscan : scan.Consistent) :
    ∃ last : Scan, (s.run actions).scans = [last] ∧ last.Consistent ∧
      ∀ p : Path, (p ∈ last.pending ↔ p ∈ scan.pending ∧ actions.any (·.reads p) = false) ∧
        ((p ∈ scan.pending → p.normalize = p ∧ ∀ a ∈ actions, a.writes p = false) →
          last.found.records[p]? =
            if p ∈ scan.pending ∧ readFirst p actions then s.store.record? p
            else scan.found.records[p]?) := by
  induction actions generalizing s scan with
  | nil => exact ⟨scan, hscans, hscan, fun p => by simp [readFirst]⟩
  | cons a rest ih =>
    rw [List.forall_mem_cons] at hduring
    obtain ⟨next, hnext, hcons, hstep⟩ := scans_step hduring.1 hscans hscan
    obtain ⟨last, hlast, hcons', hrun⟩ := ih hduring.2 hnext hcons
    refine ⟨last, hlast, hcons', fun p => ⟨?_, fun hp => ?_⟩⟩
    · rw [(hrun p).1, (hstep p).1, List.any_cons, Bool.or_eq_false_iff, and_assoc]
    · obtain ⟨hpending, hfound⟩ := hstep p
      have hlater : p ∈ next.pending → p.normalize = p ∧ ∀ a ∈ rest, a.writes p = false := by
        intro hmem
        obtain ⟨hnormal, hwrites⟩ := hp (hpending.mp hmem).1
        exact ⟨hnormal, (List.forall_mem_cons.mp hwrites).2⟩
      rw [(hrun p).2 hlater, hfound]
      by_cases hmem : p ∈ scan.pending
      · obtain ⟨hnormal, hwrites⟩ := hp hmem
        have hunwritten := (List.forall_mem_cons.mp hwrites).1
        have hrecord := (store_step (s := s) hduring.1 hunwritten hnormal).1
        have hnone := TreeMap.getElem?_eq_none (hscan.pending_new hmem)
        simp only [hpending, hmem, hrecord, hnone, readFirst]
        cases a.reads p <;> cases a.deletes p <;> simp
      · have hnot : p ∉ next.pending := fun h => hmem (hpending.mp h).1
        simp [hmem, hnot]

theorem beginScan_eq {force : Bool} (hmay : s.index.mayScan force) :
    s.beginScan force =
      ⟨(s.index.beginScan s.store).1, s.store, s.scans ++ [(s.index.beginScan s.store).2]⟩ := by
  simp [beginScan, hmay]

theorem finishScan_eq {scan : Scan} (hscans : s.scans = [scan]) (hpending : scan.pending = []) :
    s.finishScan 0 = ⟨s.index.finishScan scan, s.store, []⟩ := by
  simp [finishScan, hscans, hpending]

/-- A file that is read and not deleted is read first. -/
theorem readFirst_of_reads (hreads : actions.any (·.reads p))
    (hdeletes : actions.any (·.deletes p) = false) : readFirst p actions := by
  induction actions with
  | nil => cases hreads
  | cons a rest ih =>
    rw [List.any_cons, Bool.or_eq_false_iff] at hdeletes
    rw [List.any_cons, Bool.or_eq_true] at hreads
    rw [readFirst, hdeletes.1, Bool.or_eq_true]
    exact hreads.imp_right fun hrest => by simpa using ih hrest hdeletes.2

section Quiet

variable (hduring : ∀ a ∈ actions, a.duringScan)
  (hwrites : ∀ p, s.index.filter.selects p → ∀ a ∈ actions, a.writes p = false)

include hduring hwrites

/-- What a scan would find after the actions, where no selected file was written: the files that
were there at the start, without those that were deleted. -/
theorem scannedRecord?_run (p : Path) :
    s.index.scannedRecord? (s.run actions).store p =
      if p ∈ s.index.filesToScan s.store ∧ actions.any (·.deletes p) = false
      then s.store.record? p else none := by
  by_cases hp : p.normalize = p ∧ s.index.filter.selects p
  · obtain ⟨hrecord, hlisted⟩ := store_run (s := s) hduring hp.1 (hwrites p hp.2)
    have hfiles : p ∈ s.index.filesToScan (s.run actions).store ↔
        p ∈ s.index.filesToScan s.store ∧ actions.any (·.deletes p) = false := by
      rw [Index.mem_filesToScan_iff, Index.mem_filesToScan_iff, hlisted]
      exact and_right_comm
    simp only [Index.scannedRecord?, hfiles, hrecord]
    split
    · rename_i hkept
      rw [hkept.2, if_neg Bool.false_ne_true]
    · rfl
  · have hnot (store : FileStore) : p ∉ s.index.filesToScan store :=
      fun hmem => hp (Index.normal_of_mem_filesToScan hmem)
    simp [Index.scannedRecord?, hnot]

/-- What a scan that has read all its files has found, where no selected file was written. -/
theorem found_run (hscans : s.scans = [⟨s.index.filesToScan s.store, .empty⟩]) {last : Scan}
    (hlast : (s.run actions).scans = [last]) (hpending : last.pending = []) :
    last.Consistent ∧ ∀ p : Path,
      (p ∈ s.index.filesToScan s.store → actions.any (·.reads p)) ∧
        last.found.records[p]? =
          if p ∈ s.index.filesToScan s.store ∧ readFirst p actions then s.store.record? p
          else none := by
  obtain ⟨scan, hscan, hcons, hfound⟩ :=
    scans_run hduring hscans (s.index.consistent_beginScan s.store)
  obtain rfl : scan = last := List.singleton_inj.mp (hscan.symm.trans hlast)
  refine ⟨hcons, fun p => ⟨fun hmem => ?_, ?_⟩⟩
  · by_contra hnone
    have hstill := (hfound p).1.mpr ⟨hmem, by simpa using hnone⟩
    rw [hpending] at hstill
    cases hstill
  · refine ((hfound p).2 fun hmem => ?_).trans (by simp [Catalog.empty])
    obtain ⟨hnormal, hselects⟩ := Index.normal_of_mem_filesToScan hmem
    exact ⟨hnormal, hwrites p hselects⟩

/-- A scan that was quiet installs what a new scan would find exactly if no file was read and then
deleted. -/
theorem sameContents_finishScan_iff
    (hscans : s.scans = [⟨s.index.filesToScan s.store, .empty⟩]) {last : Scan}
    (hlast : (s.run actions).scans = [last]) (hpending : last.pending = [])
    (hfilter : (s.run actions).index.filter = s.index.filter) :
    let after := (s.run actions).index.finishScan last
    after.catalog.SameContents (after.scan (s.run actions).store true).catalog ↔
      ∀ p ∈ s.index.filesToScan s.store, (s.store.read? p).isSome → readFirst p actions →
        ∀ a ∈ actions, a.deletes p = false := by
  intro after
  obtain ⟨hcons, hfound⟩ := found_run hduring hwrites hscans hlast hpending
  have hmay : after.mayScan true := by
    simp only [after, Index.mayScan, Index.finishScan]
    cases (s.run actions).index.stale <;> rfl
  obtain ⟨_, hcons', _, hrecords⟩ := after.scan_eq (s.run actions).store hmay
  have hinstalled (p : Path) : after.catalog.records[p]? =
      if p ∈ s.index.filesToScan s.store ∧ readFirst p actions then s.store.record? p
      else none := (hfound p).2
  have hnow (p : Path) : (after.scan (s.run actions).store true).catalog.records[p]? =
      if p ∈ s.index.filesToScan s.store ∧ actions.any (·.deletes p) = false
      then s.store.record? p else none := by
    have hafter : after.filter = s.index.filter := hfilter
    rw [hrecords, Index.scannedRecord?_congr hafter, scannedRecord?_run hduring hwrites]
  constructor
  · intro hsame p hp hreadable hfirst
    have hrecord := hsame.records p
    rw [hinstalled, hnow, if_pos ⟨hp, hfirst⟩] at hrecord
    have hkept : actions.any (·.deletes p) = false := by
      by_contra hdeleted
      rw [if_neg fun h => hdeleted h.2, FileStore.record?, Option.map_eq_none_iff] at hrecord
      rw [hrecord] at hreadable
      cases hreadable
    simpa using hkept
  · intro hkept
    refine .of_records (hcons.found.refreshed true) hcons' fun p => ?_
    rw [hinstalled, hnow]
    by_cases hp : p ∈ s.index.filesToScan s.store
    · cases hread : s.store.read? p with
      | none => simp [FileStore.record?, hread]
      | some text =>
        -- The file was read, so it was read first unless it was deleted.
        have hiff : readFirst p actions ↔ actions.any (·.deletes p) = false := by
          constructor
          · intro hfirst
            simpa using hkept p hp (by simp [hread]) hfirst
          · exact readFirst_of_reads ((hfound p).1 hp)
        simp only [hiff]
    · simp [hp]

end Quiet

/-- Let every change during a scan be announced before the scan finishes. Then the finish leaves the
index valid or invalid. If it is valid, nothing marked it as out of date, and it holds what a scan
would find now exactly if no file was read and then deleted. -/
theorem finishScan_loses_only_files_deleted_after_read (s : Site) (force : Bool)
    (actions : List Action) (hscans : s.scans = []) (hmay : s.index.mayScan force)
    (hduring : ∀ a ∈ actions, a.duringScan) (hann : announced actions)
    (hdone : ∀ scan ∈ ((s.beginScan force).run actions).scans, scan.pending = []) :
    let after := ((s.beginScan force).run actions).finishScan 0
    (after.index.status = .valid ∨ after.index.status = .invalid) ∧
      (after.index.status = .valid →
        (∀ a ∈ actions, a.invalidates = false) ∧
        (after.index.catalog.SameContents (after.index.scan after.store true).catalog ↔
          ∀ p ∈ s.index.filesToScan s.store, (s.store.read? p).isSome → readFirst p actions →
            ∀ a ∈ actions, a.deletes p = false)) := by
  rw [beginScan_eq hmay, hscans, List.nil_append] at hdone ⊢
  intro after
  set begun : Site := ⟨(s.index.beginScan s.store).1, s.store, [(s.index.beginScan s.store).2]⟩
  obtain ⟨last, hlast, _, _⟩ :=
    scans_run (s := begun) hduring rfl (s.index.consistent_beginScan s.store)
  have hpending : last.pending = [] := hdone last (by simp [hlast])
  have hafter : after =
      ⟨(begun.run actions).index.finishScan last, (begun.run actions).store, []⟩ :=
    finishScan_eq hlast hpending
  have hstatus : after.index.status =
      if (begun.run actions).index.stale then .invalid else .valid := by
    rw [hafter]
    rfl
  refine ⟨?_, fun hvalid => ?_⟩
  · rw [hstatus]
    split
    · exact .inr rfl
    · exact .inl rfl
  · have hstale : (begun.run actions).index.stale = false := by
      rw [hstatus] at hvalid
      simpa using hvalid
    obtain ⟨_, hfilter, hquiet⟩ := stale_run (s := begun) rfl hduring hstale
    refine ⟨fun a ha => not_invalidates_of_quiet (hquiet a ha), ?_⟩
    rw [hafter]
    exact sameContents_finishScan_iff (s := begun) hduring
      (fun p hselects => not_writes_of_selects hann hquiet hselects) rfl hlast hpending hfilter

/-- During a scan a file is written that the filter does not select, and a file is deleted before it
is read. Nothing is lost. -/
theorem finishScan_after_early_deletion :
    let filter := (PathFilter.compile .standard (.ofString "/project") ["**/*.css"]
      []).toOption.getD (.empty (.ofString "/project"))
    let store := (FileStore.empty.write "/project/a.css" "a \x7b --x: 1 \x7d").write
      "/project/b.css" "b \x7b color: var(--x) \x7d"
    let actions : List Action := [.read 0 (.ofString "/project/a.css"),
      .write "/project/notes.txt" "b \x7b --y: 1 \x7d", .delete "/project/b.css",
      .remove (.ofString "/project/b.css"), .read 0 (.ofString "/project/b.css"),
      .update (.ofString "/project/notes.txt")]
    let after := (((start filter store).beginScan false).run actions).finishScan 0
    after.index.status = .valid ∧
      after.index.catalog.SameContents (after.index.scan after.store true).catalog := by
  intro filter store actions after
  have hvalid : after.index.status = .valid := by decide +kernel
  obtain ⟨_, hsame⟩ := finishScan_loses_only_files_deleted_after_read (start filter store) false
    actions rfl rfl (by decide) (by decide +kernel) (by decide +kernel)
  exact ⟨hvalid, (hsame hvalid).2.mpr (by decide +kernel)⟩

/-- A file that is new to the index is read by the scan and deleted before the finish. Its removal
is announced but finds nothing in the old catalog, so the index ends valid with a file that is
gone. -/
theorem announced_deletion_is_lost :
    let filter := (PathFilter.compile .standard (.ofString "/project") ["**/*.css"]
      []).toOption.getD (.empty (.ofString "/project"))
    let store := (FileStore.empty.write "/project/a.css" "a \x7b --x: 1 \x7d").write
      "/project/b.css" "b \x7b color: var(--x) \x7d"
    let actions : List Action := [.read 0 (.ofString "/project/a.css"),
      .delete "/project/a.css", .remove (.ofString "/project/a.css"),
      .read 0 (.ofString "/project/b.css")]
    let after := (((start filter store).beginScan false).run actions).finishScan 0
    announced actions ∧ after.scans.isEmpty ∧ after.index.status = .valid ∧
      ¬after.index.catalog.SameContents (after.index.scan after.store true).catalog := by
  intro filter store actions after
  have hheld : .ofString "/project/a.css" ∈ after.index.catalog.scanned := by decide +kernel
  have hgone :
      .ofString "/project/a.css" ∉ (after.index.scan after.store true).catalog.scanned := by
    decide +kernel
  refine ⟨by decide +kernel, by decide +kernel, by decide +kernel, fun hsame => ?_⟩
  exact hgone ((hsame.files _).mp hheld)

end Site

end StyleVars
