import Mathlib.Data.List.Induction
import StyleVars.Proofs.Index.Contents
import StyleVars.Proofs.Index.Site
import StyleVars.Workspace.Basic

/-!
# What events do to an index

An event about a path decides the record of that path and no other, and only a move of the head
touches the status. So what a list of events does follows from the last event about each path and
from whether the head moves among them.
-/

namespace StyleVars

namespace FileEvent

/-- Whether the event is about a normalized path. -/
def isAbout (e : FileEvent) (p : Path) : Bool := e.path?.map Path.normalize == some p

def isDeletion : FileEvent → Bool
  | .deleted _ => true
  | _ => false

end FileEvent

/-- The last of the events about a normalized path. -/
def lastAbout (p : Path) (events : List FileEvent) : Option FileEvent :=
  (events.filter (·.isAbout p)).getLast?

theorem lastAbout_snoc (p : Path) (events : List FileEvent) (e : FileEvent) :
    lastAbout p (events ++ [e]) = if e.isAbout p then some e else lastAbout p events := by
  rw [lastAbout, List.filter_append]
  split
  · rename_i habout
    simp [habout]
  · rename_i habout
    simp [habout, lastAbout]

/-- The record that an event about a path leaves there. -/
def Index.recordHeard (ix : Index) (store : FileStore) (p : Path) (e : FileEvent) :
    Option FileRecord :=
  if e.isDeletion then none else ix.readRecord? store p

/-- It depends on the index only by what the filter selects. -/
theorem Index.recordHeard_congr {ix other : Index} (h : other.filter = ix.filter)
    (store : FileStore) : other.recordHeard store = ix.recordHeard store := by
  funext p e
  rw [recordHeard, recordHeard, readRecord?, readRecord?, h]

namespace Workspace

variable {w : Workspace} (store : FileStore)

/-! ## One event -/

theorem status_handleEvent (w : Workspace) (e : FileEvent) :
    (handleEvent store w e).index.status =
      if w.index.status = .valid ∧ e = .headMoved then .invalid else w.index.status := by
  cases e with
  | created path => simp [handleEvent]
  | changed path => simp [handleEvent]
  | deleted path => simp [handleEvent]
  | headMoved =>
    simp only [handleEvent, Index.invalidate]
    cases hstatus : w.index.status <;> simp [hstatus]

theorem filter_handleEvent (w : Workspace) (e : FileEvent) :
    (handleEvent store w e).index.filter = w.index.filter := by
  cases e <;> simp [handleEvent]

theorem consistent_handleEvent (h : w.index.catalog.Consistent) (e : FileEvent) :
    (handleEvent store w e).index.catalog.Consistent := by
  cases e with
  | created path => exact Index.consistent_update h store _
  | changed path => exact Index.consistent_update h store _
  | deleted path => exact Index.consistent_remove h _
  | headMoved => simpa [handleEvent] using h

theorem getElem?_records_handleEvent (w : Workspace) (e : FileEvent) (p : Path) :
    (handleEvent store w e).index.catalog.records[p]? =
      if e.isAbout p then w.index.recordHeard store p e else w.index.catalog.records[p]? := by
  cases e with
  | created path =>
    refine (Index.getElem?_records_reread store _ p).trans ?_
    simp [FileEvent.isAbout, FileEvent.path?, FileEvent.isDeletion, Index.recordHeard]
  | changed path =>
    refine (Index.getElem?_records_reread store _ p).trans ?_
    simp [FileEvent.isAbout, FileEvent.path?, FileEvent.isDeletion, Index.recordHeard]
  | deleted path =>
    refine (Index.getElem?_records_remove _ p).trans ?_
    simp [FileEvent.isAbout, FileEvent.path?, FileEvent.isDeletion, Index.recordHeard]
  | headMoved => simp [handleEvent, FileEvent.isAbout, FileEvent.path?]

/-! ## A list of events -/

theorem filter_foldl_handleEvent (w : Workspace) (events : List FileEvent) :
    (events.foldl (handleEvent store) w).index.filter = w.index.filter := by
  induction events generalizing w with
  | nil => rfl
  | cons e events ih => exact (ih _).trans (filter_handleEvent store w e)

theorem consistent_foldl_handleEvent (h : w.index.catalog.Consistent) (events : List FileEvent) :
    (events.foldl (handleEvent store) w).index.catalog.Consistent := by
  induction events generalizing w with
  | nil => exact h
  | cons e events ih => exact ih (consistent_handleEvent store h e)

/-- A valid index becomes invalid when the head moves, and nothing else changes the status. -/
theorem status_foldl_handleEvent (w : Workspace) (events : List FileEvent) :
    (events.foldl (handleEvent store) w).index.status =
      if w.index.status = .valid ∧ .headMoved ∈ events then .invalid else w.index.status := by
  induction events generalizing w with
  | nil => simp
  | cons e events ih =>
    rw [List.foldl_cons, ih, status_handleEvent]
    by_cases hvalid : w.index.status = .valid
    · by_cases hhead : e = .headMoved
      · simp [hvalid, hhead]
      · have hne : FileEvent.headMoved ≠ e := fun h => hhead h.symm
        simp [hvalid, hhead, hne]
    · simp [hvalid]

/-- The last event about a path decides its record. -/
theorem getElem?_records_foldl_handleEvent (w : Workspace) (events : List FileEvent) (p : Path) :
    (events.foldl (handleEvent store) w).index.catalog.records[p]? =
      ((lastAbout p events).map (w.index.recordHeard store p)).getD
        w.index.catalog.records[p]? := by
  induction events using List.reverseRecOn with
  | nil => rfl
  | append_singleton events e ih =>
    have hheard := Index.recordHeard_congr (filter_foldl_handleEvent store w events) store
    rw [List.foldl_append, List.foldl_cons, List.foldl_nil, getElem?_records_handleEvent, ih,
      lastAbout_snoc, hheard]
    split
    · rfl
    · rfl

end Workspace

end StyleVars
