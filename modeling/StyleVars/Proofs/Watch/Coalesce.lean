import Mathlib.Data.List.Induction
import StyleVars.Watch.Debounce

/-!
# What is left of a burst

Events are divided into bursts with none lost or moved. Coalescing a burst leaves, for each path,
exactly one event, and that is the last one. A move of the head concerns no path, and all such moves
count as one.
-/

namespace StyleVars

/-- The last of the events that concern a path; `none` stands for the moves of the head. -/
def lastFor (path : Option Path) (events : List FileEvent) : Option FileEvent :=
  (events.filter (·.path? = path)).getLast?

theorem lastFor_snoc (path : Option Path) (events : List FileEvent) (event : FileEvent) :
    lastFor path (events ++ [event]) =
      if event.path? = path then some event else lastFor path events := by
  rw [lastFor, List.filter_append]
  split
  · rename_i hpath
    simp [hpath]
  · rename_i hpath
    simp [hpath, lastFor]

/-- A new event takes the place of the first one for its path. -/
theorem filter_coalesceOne_self (event : FileEvent) (batch : List FileEvent) :
    (coalesceOne event batch).filter (·.path? = event.path?) =
      event :: (batch.filter (·.path? = event.path?)).tail := by
  induction batch with
  | nil => simp [coalesceOne]
  | cons pending rest ih =>
    rw [coalesceOne]
    split
    · rename_i hpath
      simp [hpath]
    · rename_i hpath
      simp [hpath, ih]

theorem filter_coalesceOne_of_ne {event : FileEvent} {path : Option Path}
    (h : event.path? ≠ path) (batch : List FileEvent) :
    (coalesceOne event batch).filter (·.path? = path) = batch.filter (·.path? = path) := by
  induction batch with
  | nil => simp [coalesceOne, h]
  | cons pending rest ih =>
    rw [coalesceOne]
    split
    · rename_i hpath
      have hpending : pending.path? ≠ path := hpath ▸ h
      simp [h, hpending]
    · rw [List.filter_cons, List.filter_cons, ih]

theorem coalesce_snoc (events : List FileEvent) (event : FileEvent) :
    coalesce (events ++ [event]) = coalesceOne event (coalesce events) := by
  rw [coalesce, List.foldl_append]
  rfl

/-- Of the events for a path the last one is left, and no other. -/
theorem filter_coalesce (path : Option Path) (events : List FileEvent) :
    (coalesce events).filter (·.path? = path) = (lastFor path events).toList := by
  induction events using List.reverseRecOn with
  | nil => rfl
  | append_singleton events event ih =>
    rw [coalesce_snoc, lastFor_snoc]
    by_cases hpath : event.path? = path
    · subst hpath
      rw [if_pos rfl, filter_coalesceOne_self, ih]
      cases lastFor event.path? events <;> rfl
    · rw [if_neg hpath, filter_coalesceOne_of_ne hpath, ih]

theorem lastFor_coalesce (path : Option Path) (events : List FileEvent) :
    lastFor path (coalesce events) = lastFor path events := by
  rw [lastFor, filter_coalesce]
  cases lastFor path events <;> rfl

theorem mem_of_mem_coalesce {event : FileEvent} {events : List FileEvent}
    (h : event ∈ coalesce events) : event ∈ events := by
  have hmem : event ∈ (coalesce events).filter (·.path? = event.path?) :=
    List.mem_filter.mpr ⟨h, by simp⟩
  rw [filter_coalesce, Option.mem_toList] at hmem
  exact (List.mem_filter.mp (List.mem_of_getLast? hmem)).1

/-- No path of a burst is lost. -/
theorem exists_mem_coalesce {event : FileEvent} {events : List FileEvent} (h : event ∈ events) :
    ∃ kept ∈ coalesce events, kept.path? = event.path? := by
  have hmem : event ∈ events.filter (·.path? = event.path?) := List.mem_filter.mpr ⟨h, by simp⟩
  cases hlast : lastFor event.path? events with
  | none =>
    rw [List.getLast?_eq_none_iff.mp hlast] at hmem
    cases hmem
  | some kept =>
    have hkept : kept ∈ (coalesce events).filter (·.path? = event.path?) := by
      rw [filter_coalesce, hlast]
      exact List.mem_singleton_self kept
    obtain ⟨hin, hpath⟩ := List.mem_filter.mp hkept
    exact ⟨kept, hin, of_decide_eq_true hpath⟩

/-- No event is lost or moved when events are divided into bursts. -/
theorem flatten_bursts (delay : Nat) (events : List TimedEvent) :
    (bursts delay events).flatten = events := by
  induction events with
  | nil => rfl
  | cons e rest ih =>
    unfold bursts
    split
    · rename_i next tail burst later hbursts
      rw [hbursts] at ih
      split
      · rw [List.flatten_cons, List.cons_append, ← List.flatten_cons, ih]
      · rw [List.flatten_cons, ih, List.singleton_append]
    · rw [List.flatten_cons, ih, List.singleton_append]

end StyleVars
