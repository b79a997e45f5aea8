import StyleVars.Glob.Compiler
import StyleVars.Proofs.Workspace.Event

/-!
# Keeping an index up to date

The history of a workspace after a scan is a list of changes to files and of batches of events that
report them, in any order: batches may lag behind the changes. What matters for a path is the last
event about it since its last change. If that event is a creation or a change, or a deletion of a
file that is gone, the path is settled. When all paths are, the index holds what a new scan would
find.
-/

namespace StyleVars

open Std

/-- What happens around a workspace: a file changes, or a batch of events is handled. -/
inductive Happening where
  | change (c : FileChange)
  | batch (events : List FileEvent)
deriving Repr, DecidableEq

namespace Happening

/-- Whether the file at a path is changed. -/
def changes (p : Path) : Happening → Bool
  | .change c => c.path == p
  | .batch _ => false

/-- The last event about a path since its last change, given the one before. -/
def hear (p : Path) (news : Option FileEvent) : Happening → Option FileEvent
  | .change c => if c.path = p then none else news
  | .batch events => (events.filter (·.isAbout p)).getLast?.or news

/-- The last event about a path since its last change. -/
def lastNews (p : Path) (history : List Happening) : Option FileEvent :=
  history.foldl (hear p) none

/-- The files after a history. -/
def filesAfter (store : FileStore) (history : List Happening) : FileStore :=
  history.foldl (fun store h =>
    match h with
    | .change c => store.change c
    | .batch _ => store) store

/-- The last event about a path since its last change tells what became of the file: there is one if
the file changed at all, and it is a deletion only if nothing can be read there. -/
def Informed (store : FileStore) (history : List Happening) (p : Path) : Prop :=
  (lastNews p history = none → history.any (changes p) = false) ∧
    ∀ e ∈ lastNews p history, e.isDeletion → store.read? p = none

instance (store : FileStore) (history : List Happening) (p : Path) :
    Decidable (Informed store history p) := inferInstanceAs (Decidable (_ ∧ _))

end Happening

namespace Workspace

/-- A workspace and its files after something happened. -/
def happen (state : Workspace × FileStore) : Happening → Workspace × FileStore
  | .change c => (state.1, state.2.change c)
  | .batch events => (state.1.handleEvents state.2 events, state.2)

def replay (state : Workspace × FileStore) (history : List Happening) : Workspace × FileStore :=
  history.foldl happen state

/-- The record at a path is what a scan would find there now. -/
def Fresh (state : Workspace × FileStore) (p : Path) : Prop :=
  state.1.index.catalog.records[p]? = state.1.index.scannedRecord? state.2 p

/-- What a history guarantees about the record at a path, given the last event about it. A scan in
between may have done more than that event. -/
def Tracked (state : Workspace × FileStore) (history : List Happening) (p : Path) : Prop :=
  match Happening.lastNews p history with
  | some e => Fresh state p ∨
      state.1.index.catalog.records[p]? = state.1.index.recordHeard state.2 p e
  | none => history.any (Happening.changes p) = false → Fresh state p

/-- The invariant of a history: the index is valid and consistent, and every path is tracked. -/
structure Follows (state : Workspace × FileStore) (history : List Happening) : Prop where
  listed : state.2.Listed
  valid : state.1.index.status = .valid
  consistent : state.1.index.catalog.Consistent
  tracked (p : Path) : Tracked state history p

variable {state : Workspace × FileStore} {history : List Happening}

theorem Tracked.of_fresh {p : Path} (h : Fresh state p) : Tracked state history p := by
  rw [Tracked]
  cases Happening.lastNews p history with
  | some e => exact .inl h
  | none => exact fun _ => h

theorem lastNews_snoc (p : Path) (history : List Happening) (h : Happening) :
    Happening.lastNews p (history ++ [h]) =
      Happening.hear p (Happening.lastNews p history) h := by
  rw [Happening.lastNews, List.foldl_append]
  rfl

theorem Follows.change (h : Follows state history) (c : FileChange) :
    Follows (happen state (.change c)) (history ++ [.change c]) where
  listed := h.listed.change c
  valid := h.valid
  consistent := h.consistent
  tracked p := by
    rw [Tracked, lastNews_snoc, Happening.hear, List.any_append]
    by_cases hpath : c.path = p
    · simp [Happening.changes, hpath]
    · have hsame := state.1.index.readRecord?_change state.2 hpath
      have hscanned := state.1.index.scannedRecord?_eq h.listed p
      have hscanned' := state.1.index.scannedRecord?_eq (h.listed.change c) p
      have htracked := h.tracked p
      rw [Tracked] at htracked
      rw [if_neg hpath]
      cases hnews : Happening.lastNews p history with
      | some e =>
        rw [hnews] at htracked
        simpa [Fresh, happen, Index.recordHeard, hscanned, hscanned', hsame] using htracked
      | none =>
        rw [hnews] at htracked
        simpa [Fresh, happen, Happening.changes, hpath, hscanned, hscanned', hsame] using htracked

theorem Follows.batch (h : Follows state history) (events : List FileEvent) :
    Follows (happen state (.batch events)) (history ++ [.batch events]) := by
  have hfilter := filter_foldl_handleEvent state.2 state.1 events
  have hstatus := status_foldl_handleEvent state.2 state.1 events
  by_cases hinvalid : (events.foldl (handleEvent state.2) state.1).index.status = .invalid
  · -- The scan at the end of the batch brings every path up to date.
    have hafter : happen state (.batch events) =
        ((events.foldl (handleEvent state.2) state.1).scan state.2 false, state.2) := by
      simp [happen, handleEvents, hinvalid]
    have hmay : (events.foldl (handleEvent state.2) state.1).index.mayScan false := by
      simp [Index.mayScan, hinvalid]
    obtain ⟨hvalid, hcons, _, _⟩ := Index.scan_eq _ state.2 hmay
    rw [hafter]
    exact ⟨h.listed, hvalid, hcons, fun p => .of_fresh (Index.upToDate_scan hmay p)⟩
  · have hafter : happen state (.batch events) =
        (events.foldl (handleEvent state.2) state.1, state.2) := by
      simp [happen, handleEvents, hinvalid]
    have hvalid : (events.foldl (handleEvent state.2) state.1).index.status = .valid := by
      rw [hstatus] at hinvalid ⊢
      split at hinvalid
      · exact absurd rfl hinvalid
      · rename_i hquiet
        rw [if_neg hquiet, h.valid]
    rw [hafter]
    refine ⟨h.listed, hvalid, consistent_foldl_handleEvent state.2 h.consistent events, fun p => ?_⟩
    have htracked := h.tracked p
    rw [Tracked] at htracked
    rw [Tracked, lastNews_snoc, Happening.hear, List.any_append, ← lastAbout]
    simp only [Fresh, Index.recordHeard_congr hfilter, Index.scannedRecord?_congr hfilter,
      getElem?_records_foldl_handleEvent]
    cases hlast : lastAbout p events with
    | some e => exact .inr rfl
    | none =>
      cases hnews : Happening.lastNews p history with
      | some e =>
        rw [hnews] at htracked
        exact htracked
      | none =>
        rw [hnews] at htracked
        intro hany
        exact htracked (by simpa [Happening.changes] using hany)

theorem replay_snd (state : Workspace × FileStore) (history : List Happening) :
    (replay state history).2 = Happening.filesAfter state.2 history := by
  induction history generalizing state with
  | nil => rfl
  | cons first rest ih =>
    cases first with
    | change c => exact ih (happen state (.change c))
    | batch events => exact ih (happen state (.batch events))

theorem Follows.replay (h : Follows state []) (history : List Happening) :
    Follows (replay state history) history := by
  induction history using List.reverseRecOn with
  | nil => exact h
  | append_singleton history last ih =>
    rw [Workspace.replay, List.foldl_append]
    cases last with
    | change c => exact ih.change c
    | batch events => exact ih.batch events

/-- A scan starts a history. -/
theorem follows_scan (w : Workspace) {store : FileStore} (hlisted : store.Listed) {force : Bool}
    (hscan : w.index.mayScan force) : Follows (w.scan store force, store) [] := by
  obtain ⟨hvalid, hcons, _, _⟩ := w.index.scan_eq store hscan
  exact ⟨hlisted, hvalid, hcons, fun p => .of_fresh (Index.upToDate_scan hscan p)⟩

/-- A path is up to date once the last event about it tells what became of the file. -/
theorem Follows.fresh (h : Follows state history) {p : Path}
    (hnews : Happening.Informed state.2 history p) : Fresh state p := by
  have htracked := h.tracked p
  rw [Tracked] at htracked
  obtain ⟨hquiet, hgone⟩ := hnews
  cases hlast : Happening.lastNews p history with
  | none =>
    rw [hlast] at htracked
    exact htracked (hquiet hlast)
  | some e =>
    rw [hlast] at htracked
    rcases htracked with hfresh | hrecord
    · exact hfresh
    · rw [Index.recordHeard] at hrecord
      split at hrecord
      · -- Nothing can be read at the path, so a scan would find nothing there either.
        rename_i hdeletion
        have hnone : state.2.record? p = none := by
          rw [FileStore.record?, hgone e hlast hdeletion, Option.map_none]
        rw [Fresh, hrecord, Index.scannedRecord?]
        split
        · exact hnone.symm
        · rfl
      · rw [Fresh, Index.scannedRecord?_eq _ h.listed]
        exact hrecord

theorem Follows.sameContents (h : Follows state history)
    (hnews : ∀ p, Happening.Informed state.2 history p) :
    state.1.index.catalog.SameContents (state.1.index.scan state.2 true).catalog := by
  have hmay : state.1.index.mayScan true := by simp [Index.mayScan, h.valid]
  obtain ⟨_, hcons, _, hrecords⟩ := Index.scan_eq _ state.2 hmay
  refine .of_records h.consistent hcons fun p => ?_
  rw [hrecords p]
  exact h.fresh (hnews p)

/-- A workspace opens under the settings that hold where none are given, ready for a scan. -/
theorem exists_create_byDefault :
    ∃ w, create .standard (.ofString "/project") .byDefault = .ok w ∧ w.index.mayScan false := by
  have hok : (match create .standard (.ofString "/project") .byDefault with
      | .ok w => w.index.mayScan false
      | .error _ => false) = true := by
    decide +kernel
  split at hok
  · rename_i w hcreate
    exact ⟨w, hcreate, hok⟩
  · cases hok

theorem listed_changes (changes : List FileChange) :
    (changes.foldl FileStore.change .empty).Listed := by
  induction changes using List.reverseRecOn with
  | nil => exact .empty
  | append_singleton changes c ih =>
    rw [List.foldl_append]
    exact ih.change c

/-- Handling events keeps an index equal to a new scan. Whatever the files were at the scan, and
however changes and batches of events follow each other after it, the index ends valid and with the
contents that a forced scan would give it, provided that the last event about each path since its
last change tells what became of the file. -/
theorem replay_sameContents_forced_scan (w : Workspace) (force : Bool)
    (hscan : w.index.mayScan force) (setup : List FileChange) (history : List Happening)
    (hnews : ∀ p, Happening.Informed
      (Happening.filesAfter (setup.foldl .change .empty) history) history p) :
    let store : FileStore := setup.foldl .change .empty
    let after := replay (w.scan store force, store) history
    after.1.index.status = .valid ∧
      after.1.index.catalog.SameContents (after.1.index.scan after.2 true).catalog := by
  intro store after
  have hfollows : Follows after history :=
    (follows_scan w (listed_changes setup) hscan).replay history
  have hfiles : after.2 = Happening.filesAfter store history := replay_snd _ history
  exact ⟨hfollows.valid, hfollows.sameContents fun p => hfiles ▸ hnews p⟩

/-- Two files change after the scan, and the events about them come late, in one batch with a move
of the head. -/
theorem replay_sameContents_forced_scan_late_events :
    ∃ w, create .standard (.ofString "/project") .byDefault = .ok w ∧
      let store : FileStore := [FileChange.write "/project/a.css" "a \x7b --x: 1 \x7d",
        .write "/project/b.css" "b \x7b --x: 2; color: var(--x) \x7d"].foldl .change .empty
      let after := replay (w.scan store false, store)
        [.change (.write "/project/a.css" "a \x7b --y: 1 \x7d"),
          .change (.delete "/project/b.css"),
          .batch [.changed "/project/a.css", .headMoved, .deleted "/project/b.css"]]
      after.1.index.status = .valid ∧
        after.1.index.catalog.SameContents (after.1.index.scan after.2 true).catalog := by
  obtain ⟨w, hcreate, hscan⟩ := exists_create_byDefault
  refine ⟨w, hcreate, replay_sameContents_forced_scan w false hscan _ _ fun p => ?_⟩
  by_cases ha : FileStore.key "/project/a.css" = p
  · subst ha
    decide +kernel
  · by_cases hb : FileStore.key "/project/b.css" = p
    · subst hb
      decide +kernel
    · -- Neither the changes nor the events are about another path.
      have ha' : (Path.ofString "/project/a.css").normalize ≠ p := ha
      have hb' : (Path.ofString "/project/b.css").normalize ≠ p := hb
      simp [Happening.Informed, Happening.lastNews, Happening.hear, Happening.changes,
        FileChange.path, FileEvent.isAbout, FileEvent.path?, ha, hb, ha', hb']

/-- An event that reports the deletion of a file which is still there, and has not changed, takes
the file out of the index. A condition on the events about changed files alone is not enough. -/
theorem deletion_event_drops_unchanged_file :
    ∃ w, create .standard (.ofString "/project") .byDefault = .ok w ∧
      let store := FileStore.empty.write "/project/a.css" "a \x7b --x: 1 \x7d"
      let history := [Happening.batch [.deleted "/project/a.css"]]
      let after := replay (w.scan store false, store) history
      (∀ p, history.any (Happening.changes p) = false) ∧
        ¬after.1.index.catalog.SameContents (after.1.index.scan after.2 true).catalog := by
  have hrun : (match create .standard (.ofString "/project") .byDefault with
      | .ok w =>
        let store := FileStore.empty.write "/project/a.css" "a \x7b --x: 1 \x7d"
        let after := replay (w.scan store false, store) [.batch [.deleted "/project/a.css"]]
        !after.1.index.catalog.scanned.contains (.ofString "/project/a.css") &&
          (after.1.index.scan after.2 true).catalog.scanned.contains (.ofString "/project/a.css")
      | .error _ => false) = true := by
    decide +kernel
  split at hrun
  · rename_i w hcreate
    refine ⟨w, hcreate, fun p => rfl, fun hsame => ?_⟩
    have hfiles := hsame.files (.ofString "/project/a.css")
    simp only [Bool.and_eq_true, Bool.not_eq_true', List.contains_eq_mem,
      decide_eq_true_eq, decide_eq_false_iff_not] at hrun
    exact hrun.1 (hfiles.mpr hrun.2)
  · cases hrun

end Workspace

end StyleVars
