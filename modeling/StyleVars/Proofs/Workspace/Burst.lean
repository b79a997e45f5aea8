import StyleVars.Proofs.Watch.Coalesce
import StyleVars.Proofs.Workspace.History
import StyleVars.Proofs.Workspace.Session

/-!
# Bursts of events

What a batch of events does to an index depends on two things only: the last event about each path,
and whether the head moved. Coalescing a burst keeps both. So it does not matter to the contents of
the index whether a burst is handled as it came or coalesced, although the events of different paths
change places, and the same holds of any number of bursts that follow each other.
-/

namespace StyleVars

namespace FileEvent

/-- The event concerns a normalized path, or none. -/
def IsNormal (e : FileEvent) : Prop := ∀ p ∈ e.path?, p.normalize = p

instance (e : FileEvent) : Decidable e.IsNormal :=
  inferInstanceAs (Decidable (∀ p ∈ e.path?, p.normalize = p))

theorem IsNormal.isAbout_eq {e : FileEvent} (h : e.IsNormal) (p : Path) :
    e.isAbout p = decide (e.path? = some p) := by
  rw [isAbout, Bool.eq_iff_iff, beq_iff_eq, decide_eq_true_eq]
  cases hpath : e.path? with
  | none => simp
  | some q => simp [h q hpath]

theorem path?_eq_none_iff {e : FileEvent} : e.path? = none ↔ e = .headMoved := by
  cases e <;> simp [path?]

end FileEvent

theorem lastAbout_eq_lastFor {events : List FileEvent} (h : ∀ e ∈ events, e.IsNormal) (p : Path) :
    lastAbout p events = lastFor (some p) events := by
  rw [lastAbout, lastFor, List.filter_congr fun e he => (h e he).isAbout_eq p]

/-- Two lists of events tell the same: they end with the same event about each path, and the head
moves in both or in neither. -/
structure SameNews (xs ys : List FileEvent) : Prop where
  last (p : Path) : lastAbout p xs = lastAbout p ys
  head : .headMoved ∈ xs ↔ .headMoved ∈ ys

/-- Coalescing a burst keeps what it tells. -/
theorem sameNews_coalesce {events : List FileEvent} (h : ∀ e ∈ events, e.IsNormal) :
    SameNews (coalesce events) events where
  last p := by
    rw [lastAbout_eq_lastFor h, lastAbout_eq_lastFor fun e he => h e (mem_of_mem_coalesce he),
      lastFor_coalesce]
  head := by
    constructor
    · exact mem_of_mem_coalesce
    · intro hmem
      obtain ⟨kept, hkept, hpath⟩ := exists_mem_coalesce hmem
      rwa [FileEvent.path?_eq_none_iff.mp hpath] at hkept

namespace Workspace

variable {w v : Workspace} {store : FileStore}

/-- The indexes of two workspaces agree, but for owners, the order of registration and counters. -/
structure Alike (w v : Workspace) : Prop where
  status : w.index.status = v.index.status
  filter : w.index.filter = v.index.filter
  consistent : w.index.catalog.Consistent ∧ v.index.catalog.Consistent
  records (p : Path) : w.index.catalog.records[p]? = v.index.catalog.records[p]?

theorem Alike.refl (h : w.index.catalog.Consistent) : w.Alike w := ⟨rfl, rfl, ⟨h, h⟩, fun _ => rfl⟩

theorem Alike.sameContents (h : w.Alike v) : w.index.catalog.SameContents v.index.catalog :=
  .of_records h.consistent.1 h.consistent.2 h.records

theorem Alike.foldl_handleEvent (h : w.Alike v) (store : FileStore) {xs ys : List FileEvent}
    (hnews : SameNews xs ys) :
    (xs.foldl (handleEvent store) w).Alike (ys.foldl (handleEvent store) v) where
  status := by
    rw [status_foldl_handleEvent, status_foldl_handleEvent, h.status]
    simp only [hnews.head]
  filter := by
    rw [filter_foldl_handleEvent, filter_foldl_handleEvent]
    exact h.filter
  consistent := ⟨consistent_foldl_handleEvent store h.consistent.1 xs,
    consistent_foldl_handleEvent store h.consistent.2 ys⟩
  records p := by
    have hheard := Index.recordHeard_congr h.filter store
    rw [getElem?_records_foldl_handleEvent, getElem?_records_foldl_handleEvent, hnews.last p,
      hheard, h.records p]

/-- Workspaces stay alike when both are scanned. -/
theorem Alike.scan (h : w.Alike v) (store : FileStore) (force : Bool) :
    (w.scan store force).Alike (v.scan store force) := by
  have hmay : v.index.mayScan force = w.index.mayScan force := by
    rw [Index.mayScan, Index.mayScan, h.status]
  by_cases hscan : w.index.mayScan force
  · obtain ⟨hw, hcw, hfw, hrw⟩ := w.index.scan_eq store hscan
    obtain ⟨hv, hcv, hfv, hrv⟩ := v.index.scan_eq store (hmay.trans hscan)
    refine ⟨hw.trans hv.symm, hfw.trans (h.filter.trans hfv.symm), ⟨hcw, hcv⟩, fun p => ?_⟩
    have hfound := congrFun (Index.scannedRecord?_congr h.filter store) p
    exact (hrw p).trans (hfound.trans (hrv p).symm)
  · have hidle (u : Workspace) (hu : ¬u.index.mayScan force) : u.scan store force = u := by
      rw [Workspace.scan, Index.scan, if_neg hu]
    rw [hidle w hscan, hidle v (hmay ▸ hscan)]
    exact h

/-- Alike workspaces stay alike when they handle batches that tell the same. -/
theorem Alike.handleEvents (h : w.Alike v) (store : FileStore) {xs ys : List FileEvent}
    (hnews : SameNews xs ys) : (w.handleEvents store xs).Alike (v.handleEvents store ys) := by
  have hfold := h.foldl_handleEvent store hnews
  rw [Workspace.handleEvents, Workspace.handleEvents, hfold.status]
  split
  · exact hfold.scan store false
  · exact hfold

/-- The workspace after batches that are handled one after the other. -/
def handleBatches (w : Workspace) (store : FileStore) (batches : List (List FileEvent)) :
    Workspace :=
  batches.foldl (fun w events => w.handleEvents store events) w

theorem Alike.handleBatches (h : w.Alike v) (store : FileStore) {xss yss : List (List FileEvent)}
    (hnews : List.Forall₂ SameNews xss yss) :
    (w.handleBatches store xss).Alike (v.handleBatches store yss) := by
  induction hnews generalizing w v with
  | nil => exact h
  | cons hfirst _ ih => exact ih (h.handleEvents store hfirst)

end Workspace

/-- What is handled of a stream of events tells the same as its bursts, one by one. -/
theorem forall₂_sameNews_debounce (delay : Nat) {events : List TimedEvent}
    (h : ∀ e ∈ events, e.event.IsNormal) :
    List.Forall₂ SameNews (debounce delay events)
      ((bursts delay events).map fun burst => burst.map (·.event)) := by
  rw [debounce, List.forall₂_map_left_iff, List.forall₂_map_right_iff, List.forall₂_same]
  intro burst hburst
  refine sameNews_coalesce fun e he => ?_
  obtain ⟨timed, htimed, rfl⟩ := List.mem_map.mp he
  refine h timed ?_
  rw [← flatten_bursts delay events]
  exact List.mem_flatten_of_mem hburst htimed

namespace Session

variable {compiler : GlobCompiler} {root : Path} {settings : Settings} {w : Workspace}

/-- Debouncing does not change what becomes of the index. Take a workspace after any run, any files
and events about normalized paths. Handling the events of a burst coalesced ends with the status and
the contents that handling them as they came ends with, and so does handling a whole stream of
events debounced instead of burst by burst. -/
theorem debouncing_keeps_contents (hcreate : Workspace.create compiler root settings = .ok w)
    (start : FileStore) (steps : List Step) (store : FileStore) :
    let now := ((Session.start w start).afterAll steps).workspace
    (∀ events : List FileEvent, (∀ e ∈ events, e.IsNormal) →
      let debounced := (now.handleEvents store (coalesce events)).index
      let direct := (now.handleEvents store events).index
      debounced.status = direct.status ∧ debounced.catalog.SameContents direct.catalog) ∧
    ∀ (delay : Nat) (events : List TimedEvent), (∀ e ∈ events, e.event.IsNormal) →
      let debounced := (now.handleBatches store (debounce delay events)).index
      let direct := (now.handleBatches store
        ((bursts delay events).map fun burst => burst.map (·.event))).index
      debounced.status = direct.status ∧ debounced.catalog.SameContents direct.catalog := by
  intro now
  have hsound : now.Sound := ((sound_start hcreate start).afterAll steps).workspace
  have hnow : now.Alike now := .refl hsound.consistent
  constructor
  · intro events hnormal
    have halike := hnow.handleEvents store (sameNews_coalesce hnormal)
    exact ⟨halike.status, halike.sameContents⟩
  · intro delay events hnormal
    have halike := hnow.handleBatches store (forall₂_sameNews_debounce delay hnormal)
    exact ⟨halike.status, halike.sameContents⟩

/-- Two files define one name. The burst tells of the first file before the second and again after
it, so that coalescing makes the files change places. -/
theorem debouncing_keeps_contents_of_reordered_files :
    ∃ w, Workspace.create .standard (.ofString "/project") .byDefault = .ok w ∧
      let files := (FileStore.empty.write "/project/a.css" "a \x7b --x: 1 \x7d").write
        "/project/b.css" "b \x7b --x: 2; color: var(--x) \x7d"
      let events : List FileEvent := [.created "/project/a.css", .deleted "/project/a.css",
        .created "/project/b.css", .changed "/project/a.css"]
      let now := ((Session.start w files).afterAll [.scan false]).workspace
      let debounced := (now.handleEvents files (coalesce events)).index
      let direct := (now.handleEvents files events).index
      coalesce events = [.changed "/project/a.css", .created "/project/b.css"] ∧
        (∀ e ∈ events, e.IsNormal) ∧
        debounced.status = direct.status ∧ debounced.catalog.SameContents direct.catalog := by
  obtain ⟨w, hcreate, -⟩ := Workspace.exists_create_byDefault
  have hnormal : ∀ e ∈ [FileEvent.created "/project/a.css", .deleted "/project/a.css",
      .created "/project/b.css", .changed "/project/a.css"], e.IsNormal := by decide +kernel
  refine ⟨w, hcreate, by decide +kernel, hnormal, ?_⟩
  exact (debouncing_keeps_contents hcreate _ [.scan false] _).1 _ hnormal

end Session

end StyleVars
