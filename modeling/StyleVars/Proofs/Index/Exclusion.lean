import Mathlib.Data.List.Induction
import StyleVars.Proofs.Index.Interleaving

/-!
# One scan at a time

The index remembers a running scan by its status alone. A scan is begun only where the status is not
scanning, so at most one runs, as long as the status tells the truth. Every action keeps it truthful
but one: disposing of the index while a scan runs makes it empty, and the scan goes on. Another scan
may then begin beside it, and whatever the forgotten scan has found is installed when it finishes.

Hence scans exclude each other throughout a run exactly if the index is never disposed of during a
scan, and an index that was disposed of stays empty exactly as long as no scan finishes.
-/

namespace StyleVars

namespace Index

variable {ix : Index}

theorem not_mayScan_of_scanning (h : ix.status = .scanning) (force : Bool) :
    ix.mayScan force = false := by
  simp [mayScan, h]

theorem scanning_invalidate : ix.invalidate.status = .scanning ↔ ix.status = .scanning := by
  cases h : ix.status <;> simp [invalidate, h]

/-- A scan without interruption leaves no scan running that was not running before. -/
theorem scanning_scan (store : FileStore) (force : Bool) :
    (ix.scan store force).status = .scanning ↔ ix.status = .scanning := by
  by_cases hmay : ix.mayScan force
  · have hnot : ix.status ≠ .scanning := by
      intro hscanning
      rw [not_mayScan_of_scanning hscanning] at hmay
      cases hmay
    simp [(ix.scan_eq store hmay).1, hnot]
  · simp [scan, hmay]

theorem status_finishScan (scan : Scan) :
    (ix.finishScan scan).status = .valid ∨ (ix.finishScan scan).status = .invalid := by
  simp only [finishScan]
  cases ix.stale
  · exact .inl rfl
  · exact .inr rfl

/-- The index holds nothing and waits for a scan. -/
def Vacant (ix : Index) : Prop := ix.status = .empty ∧ ix.catalog = .empty

theorem vacant_dispose (ix : Index) : ix.dispose.Vacant := ⟨rfl, rfl⟩

theorem Vacant.invalidate (h : ix.Vacant) : ix.invalidate = ix := by
  simp [Index.invalidate, h.1]

theorem Vacant.setFilter (h : ix.Vacant) (filter : PathFilter) : (ix.setFilter filter).Vacant := by
  have hset : ({ ix with filter } : Index).Vacant := h
  rw [Index.setFilter, hset.invalidate]
  exact hset

theorem Vacant.remove (h : ix.Vacant) (path : Path) : (ix.remove path).1 = ix := by
  simp [Index.remove, h.2, Catalog.contains, Catalog.empty]

theorem not_vacant_finishScan (scan : Scan) : ¬(ix.finishScan scan).Vacant := by
  rintro ⟨hempty, _⟩
  rcases ix.status_finishScan scan with h | h <;> simp [h] at hempty

end Index

namespace Site

namespace Action

/-- Whether the action asks for a scan. -/
def asksForScan : Action → Bool
  | .scan _ | .beginScan _ => true
  | _ => false

/-- Whether the action reads a file again, or ends such a read. -/
def rereads : Action → Bool
  | .update _ | .refresh _ _ => true
  | _ => false

end Action

/-- At most one scan runs, and the status is scanning exactly while one does. -/
structure Exclusive (s : Site) : Prop where
  atMostOne : s.scans.length ≤ 1
  scanning_iff : s.index.status = .scanning ↔ s.scans ≠ []

variable {s t : Site} {a : Action} {actions : List Action}

theorem run_snoc (s : Site) (actions : List Action) (a : Action) :
    s.run (actions ++ [a]) = (s.run actions).step a := by
  simp [run]

theorem run_append_cons (s : Site) (before : List Action) (a : Action) (later : List Action) :
    s.run (before ++ a :: later) = ((s.run before).step a).run later := by
  simp [run]

theorem length_scans_read (s : Site) (n : Nat) (path : Path) :
    (s.read n path).scans.length = s.scans.length := by
  rw [read]
  split
  · split
    · exact List.length_set
    · rfl
  · rfl

/-- A scan that finishes is no longer counted; one that cannot finish changes nothing. -/
theorem finishScan_cases (s : Site) (n : Nat) :
    s.finishScan n = s ∨
      (s.finishScan n).scans.length + 1 = s.scans.length ∧
        ∃ scan : Scan, (s.finishScan n).index = s.index.finishScan scan := by
  rw [finishScan]
  split
  · rename_i scan hscan
    split
    · obtain ⟨hn, _⟩ := List.getElem?_eq_some_iff.mp hscan
      refine .inr ⟨?_, scan, rfl⟩
      rw [List.length_eraseIdx_of_lt hn]
      omega
    · exact .inl rfl
  · exact .inl rfl

/-! ## Exclusion -/

theorem exclusive_start (filter : PathFilter) (store : FileStore) :
    (start filter store).Exclusive := ⟨Nat.zero_le _, by simp [start, Index.empty]⟩

theorem Exclusive.of_same (h : s.Exclusive) (hlength : t.scans.length = s.scans.length)
    (hstatus : t.index.status = .scanning ↔ s.index.status = .scanning) : t.Exclusive := by
  refine ⟨hlength ▸ h.atMostOne, hstatus.trans (h.scanning_iff.trans ?_)⟩
  rw [← List.length_pos_iff, ← List.length_pos_iff, hlength]

theorem Exclusive.of_idle (hscans : s.scans = []) (hstatus : s.index.status ≠ .scanning) :
    s.Exclusive := by
  refine ⟨by simp [hscans], ?_⟩
  simp [hscans, hstatus]

theorem Exclusive.beginScan (h : s.Exclusive) (force : Bool) : (s.beginScan force).Exclusive := by
  by_cases hmay : s.index.mayScan force
  · have hscans : s.scans = [] := by
      by_contra hrunning
      rw [Index.not_mayScan_of_scanning (h.scanning_iff.mpr hrunning)] at hmay
      cases hmay
    rw [beginScan_eq hmay, hscans]
    exact ⟨Nat.le_refl 1, by simp [Index.beginScan]⟩
  · simpa [Site.beginScan, hmay] using h

theorem Exclusive.finishScan (h : s.Exclusive) (n : Nat) : (s.finishScan n).Exclusive := by
  rcases s.finishScan_cases n with hsame | ⟨hlength, scan, hindex⟩
  · rwa [hsame]
  · have hone := h.atMostOne
    refine .of_idle (List.length_eq_zero_iff.mp (by omega)) ?_
    rw [hindex]
    rcases s.index.status_finishScan scan with hvalid | hinvalid
    · simp [hvalid]
    · simp [hinvalid]

/-- Only disposing of the index while a scan runs ends the exclusion of scans. -/
theorem Exclusive.step (h : s.Exclusive) (hdispose : a = .dispose → s.scans = []) :
    (s.step a).Exclusive := by
  cases a with
  | write path text => exact h.of_same rfl .rfl
  | list path => exact h.of_same rfl .rfl
  | delete path => exact h.of_same rfl .rfl
  | setUnreadable path on => exact h.of_same rfl .rfl
  | scan force => exact h.of_same rfl (Index.scanning_scan s.store force)
  | beginScan force => exact h.beginScan force
  | read n path =>
    refine h.of_same (s.length_scans_read n path) ?_
    rw [step, (s.index_read n path).1]
  | finishScan n => exact h.finishScan n
  | update path => exact h.of_same rfl (by rw [step, Index.status_update])
  | refresh path text => exact h.of_same rfl .rfl
  | remove path => exact h.of_same rfl (by rw [step, Index.status_remove])
  | invalidate => exact h.of_same rfl Index.scanning_invalidate
  | setFilter filter => exact h.of_same rfl Index.scanning_invalidate
  | dispose => exact .of_idle (hdispose rfl) (by simp [step, Index.dispose])

theorem Exclusive.scans_of_dispose (h : (s.step .dispose).Exclusive) : s.scans = [] := by
  by_contra hrunning
  have hscanning := h.scanning_iff.mpr hrunning
  cases hscanning

/-- Scans exclude each other at every moment of a run exactly if the index is never disposed of
during a scan. -/
theorem Exclusive.throughout_iff (h : s.Exclusive) (actions : List Action) :
    (∀ before, before <+: actions → (s.run before).Exclusive) ↔
      ∀ before, before ++ [.dispose] <+: actions → (s.run before).scans = [] := by
  constructor
  · intro hall before hbefore
    have hafter := hall _ hbefore
    rw [run_snoc] at hafter
    exact hafter.scans_of_dispose
  · intro hdispose before
    induction before using List.reverseRecOn with
    | nil => exact fun _ => h
    | append_singleton before a ih =>
      intro hbefore
      rw [run_snoc]
      refine (ih ((List.prefix_append before [a]).trans hbefore)).step fun ha => ?_
      exact hdispose before (ha ▸ hbefore)

/-! ## After disposal -/

theorem length_scans_step_le (hask : a.asksForScan = false) :
    (s.step a).scans.length ≤ s.scans.length := by
  cases a with
  | read n path => exact (s.length_scans_read n path).le
  | finishScan n =>
    rcases s.finishScan_cases n with hsame | ⟨hlength, _⟩
    · rw [step, hsame]
    · rw [step]
      omega
  | scan force | beginScan force => cases hask
  | _ => exact Nat.le_refl _

theorem length_scans_run_le (hask : ∀ a ∈ actions, a.asksForScan = false) :
    (s.run actions).scans.length ≤ s.scans.length := by
  induction actions generalizing s with
  | nil => exact Nat.le_refl _
  | cons a rest ih =>
    rw [List.forall_mem_cons] at hask
    exact (ih hask.2).trans (length_scans_step_le hask.1)

/-- A vacant index is filled by a scan that finishes and by nothing else, unless a scan is asked for
or a file is read again. -/
theorem vacant_step (h : s.index.Vacant) (hask : a.asksForScan = false)
    (hreread : a.rereads = false) :
    (s.step a).index.Vacant ∧ (s.step a).scans.length = s.scans.length ∨
      ¬(s.step a).index.Vacant ∧ (s.step a).scans.length < s.scans.length := by
  cases a with
  | write path text | list path | delete path | setUnreadable path on => exact .inl ⟨h, rfl⟩
  | scan force | beginScan force => cases hask
  | update path | refresh path text => cases hreread
  | read n path =>
    refine .inl ⟨?_, s.length_scans_read n path⟩
    rw [step, read]
    split
    · split
      · exact h
      · exact h
    · exact h
  | finishScan n =>
    rw [step]
    rcases s.finishScan_cases n with hsame | ⟨hlength, scan, hindex⟩
    · rw [hsame]
      exact .inl ⟨h, rfl⟩
    · refine .inr ⟨?_, by omega⟩
      rw [hindex]
      exact Index.not_vacant_finishScan scan
  | remove path =>
    refine .inl ⟨?_, rfl⟩
    rw [step, h.remove]
    exact h
  | invalidate =>
    refine .inl ⟨?_, rfl⟩
    rw [step, h.invalidate]
    exact h
  | setFilter filter => exact .inl ⟨h.setFilter filter, rfl⟩
  | dispose => exact .inl ⟨s.index.vacant_dispose, rfl⟩

/-- A vacant index stays vacant exactly as long as no scan finishes. -/
theorem vacant_throughout_iff (h : s.index.Vacant)
    (hasks : ∀ a ∈ actions, a.asksForScan = false) (hrereads : ∀ a ∈ actions, a.rereads = false) :
    (∀ before, before <+: actions → (s.run before).index.Vacant) ↔
      (s.run actions).scans.length = s.scans.length := by
  induction actions generalizing s with
  | nil =>
    refine ⟨fun _ => rfl, fun _ before hbefore => ?_⟩
    rw [List.prefix_nil.mp hbefore]
    exact h
  | cons a rest ih =>
    rw [List.forall_mem_cons] at hasks hrereads
    have hrun : s.run (a :: rest) = (s.step a).run rest := rfl
    rcases vacant_step h hasks.1 hrereads.1 with ⟨hvacant, hsame⟩ | ⟨hfilled, hfewer⟩
    · rw [hrun, ← hsame, ← ih hvacant hasks.2 hrereads.2]
      constructor
      · exact fun hall before hbefore => hall (a :: before) ((List.prefix_cons_inj a).mpr hbefore)
      · intro hall before hbefore
        rcases List.prefix_cons_iff.mp hbefore with rfl | ⟨later, rfl, hlater⟩
        · exact h
        · exact hall later hlater
    · have hle := length_scans_run_le (s := s.step a) hasks.2
      constructor
      · intro hall
        exact absurd (hall [a] ⟨rest, rfl⟩) hfilled
      · intro hlength
        rw [hrun] at hlength
        omega

/-- In every run, from an index that holds nothing, scans exclude each other and the status tells
whether one runs, at every moment, exactly if the index is never disposed of during a scan. After it
was disposed of, and unless a scan is asked for or a file is read again, it holds nothing at every
later moment exactly if none of the scans that ran at the disposal finishes. -/
theorem scans_exclusive_iff_not_disposed_during_scan (filter : PathFilter) (store : FileStore)
    (actions : List Action) :
    let moment (before : List Action) : Site := (start filter store).run before
    ((∀ before, before <+: actions →
        (moment before).scans.length ≤ 1 ∧
          ((moment before).index.status = .scanning ↔ (moment before).scans ≠ [])) ↔
      ∀ before, before ++ [.dispose] <+: actions → (moment before).scans = []) ∧
    ∀ before later, actions = before ++ .dispose :: later →
      (∀ a ∈ later, a.asksForScan = false ∧ a.rereads = false) →
      ((∀ part, part <+: later →
          (moment (before ++ .dispose :: part)).index.status = .empty ∧
            (moment (before ++ .dispose :: part)).index.catalog = .empty) ↔
        (moment actions).scans.length = (moment before).scans.length) := by
  intro moment
  constructor
  · rw [← (exclusive_start filter store).throughout_iff actions]
    exact forall₂_congr fun before _ => ⟨fun h => ⟨h.1, h.2⟩, fun h => ⟨h.1, h.2⟩⟩
  · rintro before later rfl hlater
    have hvacant : ((moment before).step .dispose).index.Vacant := Index.vacant_dispose _
    have hiff := vacant_throughout_iff hvacant (fun a ha => (hlater a ha).1)
      (fun a ha => (hlater a ha).2)
    simp only [moment, run_append_cons]
    exact hiff

/-- Disposing of an index during its first scan makes it empty while the scan runs, lets a second
scan begin beside the first, and is undone when the first scan finishes. -/
theorem dispose_does_not_stop_running_scan :
    let filter := (PathFilter.compile .standard (.ofString "/project") ["**/*.css"]
      []).toOption.getD (.empty (.ofString "/project"))
    let store := FileStore.empty.write "/project/a.css" "a \x7b --x: 1 \x7d"
    let disposed := (start filter store).run [.beginScan false, .dispose]
    let second := disposed.run [.beginScan false]
    let finished := disposed.run [.read 0 (.ofString "/project/a.css"), .finishScan 0]
    (disposed.index.status = .empty ∧ disposed.scans ≠ []) ∧ second.scans.length = 2 ∧
      finished.index.status = .valid ∧ "--x" ∈ finished.index.catalog.names := by
  decide +kernel

end Site

end StyleVars
