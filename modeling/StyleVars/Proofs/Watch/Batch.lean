import Mathlib.Data.List.Forall2
import Mathlib.Data.List.Nodup
import Mathlib.Data.List.SplitBy
import StyleVars.Proofs.Watch.Coalesce
import StyleVars.Watch.Inbox

/-!
# The batches of an inbox

Receiving divides events into runs, in which each event follows its neighbour before the delay has
run out, and no two runs could be one. Of each run a batch holds the last event for every path, in
the order in which the paths first appear. The runs and the batches are decided by these properties,
so nothing else can be received.
-/

namespace StyleVars

/-! ## Digests -/

/-- Where a path first appears among events. Moves of the head count as one path. -/
def firstAppearance (path : Option Path) (events : List FileEvent) : Nat :=
  (events.map (·.path?)).idxOf path

/-- The batch tells what counts of the events: the last one for each path, in the order in which the
paths first appear. -/
structure IsDigest (events batch : List FileEvent) : Prop where
  mem_iff (e : FileEvent) : e ∈ batch ↔ lastFor e.path? events = some e
  ordered : batch.Pairwise fun a b =>
    firstAppearance a.path? events < firstAppearance b.path? events

/-- An event takes the place of the pending one for its path, or comes last. -/
theorem map_path?_coalesceOne (event : FileEvent) (batch : List FileEvent) :
    (coalesceOne event batch).map (·.path?) =
      if event.path? ∈ batch.map (·.path?) then batch.map (·.path?)
      else batch.map (·.path?) ++ [event.path?] := by
  induction batch with
  | nil => rfl
  | cons pending rest ih =>
    rw [coalesceOne]
    by_cases hpath : pending.path? = event.path?
    · simp [hpath]
    · have hne : event.path? ≠ pending.path? := Ne.symm hpath
      rw [if_neg hpath, List.map_cons, ih]
      by_cases hmem : event.path? ∈ rest.map (·.path?)
      · rw [if_pos hmem, List.map_cons, if_pos (List.mem_cons_of_mem _ hmem)]
      · have hnot : event.path? ∉ (pending :: rest).map (·.path?) := by
          intro hcons
          rcases List.mem_cons.mp hcons with heq | hrest
          · exact hne heq
          · exact hmem hrest
        rw [if_neg hmem, if_neg hnot, List.map_cons, List.cons_append]

theorem mem_paths_coalesce {path : Option Path} {events : List FileEvent} :
    path ∈ (coalesce events).map (·.path?) ↔ path ∈ events.map (·.path?) := by
  constructor
  · intro hmem
    obtain ⟨e, he, rfl⟩ := List.mem_map.mp hmem
    exact List.mem_map_of_mem (mem_of_mem_coalesce he)
  · intro hmem
    obtain ⟨e, he, rfl⟩ := List.mem_map.mp hmem
    obtain ⟨kept, hkept, hpath⟩ := exists_mem_coalesce he
    exact List.mem_map.mpr ⟨kept, hkept, hpath⟩

/-- Coalescing keeps the order of first appearance. -/
theorem pairwise_paths_coalesce (events : List FileEvent) :
    ((coalesce events).map (·.path?)).Pairwise fun p q =>
      firstAppearance p events < firstAppearance q events := by
  induction events using List.reverseRecOn with
  | nil => exact .nil
  | append_singleton events event ih =>
    have hseen {p : Option Path} (hp : p ∈ (coalesce events).map (·.path?)) :
        firstAppearance p (events ++ [event]) = firstAppearance p events := by
      rw [firstAppearance, List.map_append]
      exact List.idxOf_append_of_mem (mem_paths_coalesce.mp hp)
    have hearlier := ih.imp_of_mem fun {p q} hp hq hlt => by
      rwa [← hseen hp, ← hseen hq] at hlt
    rw [coalesce_snoc, map_path?_coalesceOne]
    split
    · exact hearlier
    · -- A path that is new appears after all others.
      rename_i hnew
      refine List.pairwise_append.mpr ⟨hearlier, List.pairwise_singleton _ _, ?_⟩
      intro p hp q hq
      have hnot : event.path? ∉ events.map (·.path?) := fun h => hnew (mem_paths_coalesce.mpr h)
      have hlast : firstAppearance event.path? (events ++ [event]) = events.length := by
        rw [firstAppearance, List.map_append, List.idxOf_append_of_notMem hnot]
        simp
      rw [List.mem_singleton.mp hq, hlast, hseen hp, ← List.length_map (·.path?)]
      exact List.idxOf_lt_length_iff.mpr (mem_paths_coalesce.mp hp)

theorem isDigest_coalesce (events : List FileEvent) : IsDigest events (coalesce events) where
  mem_iff e := by
    have hfilter : e ∈ (coalesce events).filter (·.path? = e.path?) ↔ e ∈ coalesce events := by
      simp
    rw [← hfilter, filter_coalesce, Option.mem_toList]
  ordered := by
    have hpaths := pairwise_paths_coalesce events
    rwa [List.pairwise_map] at hpaths

namespace IsDigest

variable {events batch other : List FileEvent}

/-- No path appears twice. -/
theorem nodup_paths (h : IsDigest events batch) : (batch.map (·.path?)).Nodup := by
  apply List.pairwise_map.mpr
  apply h.ordered.imp
  intro a b hlt heq
  rw [heq] at hlt
  exact Nat.lt_irrefl _ hlt

theorem nodup (h : IsDigest events batch) : batch.Nodup := List.Nodup.of_map _ h.nodup_paths

/-- Events have one digest only. -/
theorem eq (h : IsDigest events batch) (h' : IsDigest events other) : batch = other := by
  have hperm : batch.Perm other := by
    apply (List.perm_ext_iff_of_nodup h.nodup h'.nodup).mpr
    intro e
    exact (h.mem_iff e).trans (h'.mem_iff e).symm
  refine hperm.eq_of_pairwise ?_ h.ordered h'.ordered
  intro a b _ _ hab hba
  exact absurd hab (Nat.lt_asymm hba)

end IsDigest

theorem isDigest_iff {events batch : List FileEvent} :
    IsDigest events batch ↔ coalesce events = batch := by
  constructor
  · intro h
    exact (isDigest_coalesce events).eq h
  · rintro rfl
    exact isDigest_coalesce events

theorem forall₂_isDigest_iff {runs : List (List TimedEvent)} {batches : List (List FileEvent)} :
    List.Forall₂ (fun run batch => IsDigest (run.map (·.event)) batch) runs batches ↔
      runs.map (fun run => coalesce (run.map (·.event))) = batches := by
  simp only [isDigest_iff]
  have hmap := List.forall₂_map_left_iff (R := Eq)
    (f := fun run : List TimedEvent => coalesce (run.map (·.event))) (l := runs) (u := batches)
  rw [← hmap, List.forall₂_eq_eq_eq]

/-! ## Runs -/

/-- Each event happens no earlier than those before it. -/
def Chronological (events : List TimedEvent) : Prop := events.Pairwise (·.time ≤ ·.time)

instance (events : List TimedEvent) : Decidable (Chronological events) :=
  inferInstanceAs (Decidable (List.Pairwise _ _))

/-- The runs divide the events. Within a run each event follows its neighbour before the delay has
run out, and between runs it does not, so that no run could go on. -/
structure MaximalRuns (delay : Nat) (events : List TimedEvent) (runs : List (List TimedEvent)) :
    Prop where
  flatten_eq : runs.flatten = events
  nil_notMem : [] ∉ runs
  close : ∀ run ∈ runs, run.IsChain fun a b => b.time < a.time + delay
  apart : runs.IsChain fun run next =>
    ∀ a ∈ run.getLast?, ∀ b ∈ next.head?, a.time + delay < b.time

namespace MaximalRuns

variable {delay : Nat} {events : List TimedEvent} {runs other : List (List TimedEvent)}

theorem eq_splitBy (h : MaximalRuns delay events runs) :
    events.splitBy (fun a b => b.time < a.time + delay) = runs := by
  rw [← h.flatten_eq]
  apply List.splitBy_flatten h.nil_notMem
  · simpa using h.close
  · refine h.apart.imp_of_mem_imp ?_
    intro run next hrun hnext hapart
    have hne : run ≠ [] := ne_of_mem_of_not_mem hrun h.nil_notMem
    have hne' : next ≠ [] := ne_of_mem_of_not_mem hnext h.nil_notMem
    have hlt := hapart _ (List.getLast?_eq_some_getLast hne) _ (List.head?_eq_some_head hne')
    refine ⟨hne, hne', ?_⟩
    exact decide_eq_false (by omega)

/-- Events have one division into maximal runs only. -/
theorem eq (h : MaximalRuns delay events runs) (h' : MaximalRuns delay events other) :
    runs = other := h.eq_splitBy.symm.trans h'.eq_splitBy

end MaximalRuns

section Bursts

variable {delay : Nat} {e next : TimedEvent} {rest burst : List TimedEvent}
  {later : List (List TimedEvent)}

theorem bursts_of_close (h : bursts delay (next :: rest) = burst :: later)
    (hclose : next.time - e.time < delay ∨ next.time = e.time) :
    bursts delay (e :: next :: rest) = (e :: burst) :: later := by
  unfold bursts
  rw [h]
  exact if_pos hclose

theorem bursts_of_far (h : bursts delay (next :: rest) = burst :: later)
    (hfar : ¬(next.time - e.time < delay ∨ next.time = e.time)) :
    bursts delay (e :: next :: rest) = [e] :: burst :: later := by
  unfold bursts
  rw [h]
  exact if_neg hfar

/-- The first burst begins with the first event. -/
theorem exists_bursts_cons (delay : Nat) (e : TimedEvent) (rest : List TimedEvent) :
    ∃ taken later, bursts delay (e :: rest) = (e :: taken) :: later := by
  induction rest generalizing e with
  | nil => exact ⟨[], [], rfl⟩
  | cons next rest ih =>
    obtain ⟨taken, later, hbursts⟩ := ih next
    by_cases hclose : next.time - e.time < delay ∨ next.time = e.time
    · exact ⟨_, _, bursts_of_close hbursts hclose⟩
    · exact ⟨_, _, bursts_of_far hbursts hclose⟩

/-- The bursts of events are their maximal runs. -/
theorem maximalRuns_bursts {events : List TimedEvent} (horder : Chronological events)
    (hgap : events.IsChain fun a b => a.time + delay ≠ b.time) :
    MaximalRuns delay events (bursts delay events) := by
  induction events with
  | nil => exact ⟨rfl, List.not_mem_nil, by simp [bursts], .nil⟩
  | cons e rest ih =>
    cases rest with
    | nil => exact ⟨rfl, by simp [bursts], by simp [bursts], by simp [bursts]⟩
    | cons next rest =>
      obtain ⟨hle, horder⟩ := List.pairwise_cons.mp horder
      obtain ⟨hne, hgap⟩ := List.isChain_cons_cons.mp hgap
      have htime : e.time ≤ next.time := hle next List.mem_cons_self
      obtain ⟨taken, later, hbursts⟩ := exists_bursts_cons delay next rest
      have hrest := ih horder hgap
      rw [hbursts] at hrest
      obtain ⟨hfirst, hlater⟩ := List.forall_mem_cons.mp hrest.close
      have hflatten := flatten_bursts delay (e :: next :: rest)
      by_cases hclose : next.time - e.time < delay ∨ next.time = e.time
      · rw [bursts_of_close hbursts hclose] at hflatten ⊢
        refine ⟨hflatten, ?_, ?_, ?_⟩
        · simpa using hrest.nil_notMem
        · refine List.forall_mem_cons.mpr ⟨?_, hlater⟩
          exact List.isChain_cons_cons.mpr ⟨by omega, hfirst⟩
        · -- The first run still ends where it did.
          obtain ⟨hhead, htail⟩ := List.isChain_cons.mp hrest.apart
          refine List.isChain_cons.mpr ⟨?_, htail⟩
          simpa [List.getLast?_cons_cons] using hhead
      · rw [bursts_of_far hbursts hclose] at hflatten ⊢
        refine ⟨hflatten, ?_, ?_, ?_⟩
        · simpa using hrest.nil_notMem
        · refine List.forall_mem_cons.mpr ⟨List.isChain_singleton e, hrest.close⟩
        · refine List.isChain_cons_cons.mpr ⟨?_, hrest.apart⟩
          intro a ha b hb
          obtain rfl : e = a := Option.some.inj ha
          obtain rfl : next = b := Option.some.inj hb
          omega

end Bursts

/-! ## Receiving -/

namespace Inbox

variable {delay : Nat}

/-- What is gathered after an event is the rest of the first burst, and the bursts that follow are
left, none of which was due by then. -/
theorem gather_spec (e : TimedEvent) {later : List TimedEvent} (batch : List FileEvent)
    (h : Chronological (e :: later)) :
    ∃ taken rest now, later = taken ++ rest ∧
      gather delay batch e.time later =
        (taken.foldl (fun batch t => coalesceOne t.event batch) batch, ⟨now, rest⟩) ∧
      (∀ next ∈ rest.head?, now ≤ next.time) ∧
      bursts delay (e :: later) = (e :: taken) :: bursts delay rest := by
  induction later generalizing e batch with
  | nil => exact ⟨[], [], e.time, rfl, rfl, by simp, rfl⟩
  | cons next later ih =>
    obtain ⟨hle, horder⟩ := List.pairwise_cons.mp h
    have htime : e.time ≤ next.time := hle next List.mem_cons_self
    by_cases hsoon : next.time ≤ e.time ∨ next.time < e.time + delay
    · obtain ⟨taken, rest, now, rfl, hgather, hnow, hbursts⟩ :=
        ih next (coalesceOne next.event batch) horder
      refine ⟨next :: taken, rest, now, rfl, ?_, hnow, bursts_of_close hbursts (by omega)⟩
      rw [gather, if_pos hsoon, Nat.max_eq_right htime]
      exact hgather
    · obtain ⟨taken, following, hbursts⟩ := exists_bursts_cons delay next later
      refine ⟨[], next :: later, e.time + delay, rfl, ?_, ?_, ?_⟩
      · rw [gather, if_neg hsoon]
        rfl
      · rintro _ ⟨⟩
        omega
      · rw [bursts_of_far hbursts (by omega), hbursts]

/-- The batches of events that are still to happen are their bursts, each coalesced. -/
theorem batches_eq_debounce (inbox : Inbox) (horder : Chronological inbox.awaited)
    (hnow : ∀ first ∈ inbox.awaited.head?, inbox.now ≤ first.time) :
    inbox.batches delay = debounce delay inbox.awaited := by
  fun_induction batches delay inbox with
  | case1 inbox hnone =>
    obtain ⟨now, awaited⟩ := inbox
    cases awaited with
    | nil => rfl
    | cons first later => cases hnone
  | case2 inbox batch rest hnext _ ih =>
    obtain ⟨now, awaited⟩ := inbox
    cases awaited with
    | nil => cases hnext
    | cons first later =>
      obtain ⟨taken, left, time, rfl, hgather, hdue, hbursts⟩ :=
        gather_spec first [first.event] horder
      have hmax : max now first.time = first.time := Nat.max_eq_right (hnow first rfl)
      have hbatch : some (gather delay [first.event] (max now first.time) (taken ++ left)) =
          some (batch, rest) := hnext
      rw [hmax, hgather] at hbatch
      cases hbatch
      have hleft : Chronological left := (List.pairwise_cons.mp horder).2.sublist
        (List.sublist_append_right taken left)
      rw [ih hleft hdue, debounce, debounce, hbursts, List.map_cons, coalesce, List.foldl_map]
      rfl

/-- What is received of events in chronological order, if no two neighbours are exactly a delay
apart. The batches are the digests of the maximal runs in which neighbours are less than a delay
apart: this is true of no other batches. So no path is lost, and none appears twice in a batch. -/
theorem batches_eq_iff_digests_of_maximal_runs {events : List TimedEvent}
    (horder : Chronological events)
    (hgap : events.IsChain fun a b => a.time + delay ≠ b.time) :
    (∀ batches, (ofEvents events).batches delay = batches ↔
      ∃ runs, MaximalRuns delay events runs ∧
        List.Forall₂ (fun run batch => IsDigest (run.map (·.event)) batch) runs batches) ∧
    (∀ e ∈ events, ∃ batch ∈ (ofEvents events).batches delay,
      ∃ kept ∈ batch, kept.path? = e.event.path?) ∧
    ∀ batch ∈ (ofEvents events).batches delay, (batch.map (·.path?)).Nodup := by
  have hruns := maximalRuns_bursts horder hgap
  have hbatches : (ofEvents events).batches delay =
      (bursts delay events).map fun run => coalesce (run.map (·.event)) :=
    batches_eq_debounce _ horder fun _ _ => Nat.zero_le _
  refine ⟨?_, ?_, ?_⟩
  · intro batches
    constructor
    · intro heq
      exact ⟨_, hruns, forall₂_isDigest_iff.mpr (hbatches.symm.trans heq)⟩
    · rintro ⟨runs, hmaximal, hdigests⟩
      rw [hmaximal.eq hruns] at hdigests
      exact hbatches.trans (forall₂_isDigest_iff.mp hdigests)
  · intro e he
    rw [← hruns.flatten_eq] at he
    obtain ⟨run, hrun, hmem⟩ := List.mem_flatten.mp he
    refine ⟨coalesce (run.map (·.event)), ?_, exists_mem_coalesce (List.mem_map_of_mem hmem)⟩
    rw [hbatches]
    exact List.mem_map_of_mem hrun
  · intro batch hbatch
    rw [hbatches] at hbatch
    obtain ⟨run, _, rfl⟩ := List.mem_map.mp hbatch
    exact (isDigest_coalesce _).nodup_paths

/-- A file is changed and deleted under two spellings of its path, with the head moved in between,
and after a pause it is created again. -/
theorem batches_eq_iff_digests_of_two_runs :
    let events : List TimedEvent := [⟨0, .changed "/a"⟩, ⟨50, .headMoved⟩, ⟨140, .deleted "//a"⟩,
      ⟨300, .created "/a"⟩]
    Chronological events ∧ events.IsChain (fun a b => a.time + 100 ≠ b.time) ∧
      (ofEvents events).batches 100 = [[.deleted "//a", .headMoved], [.created "/a"]] ∧
      ∃ runs, MaximalRuns 100 events runs ∧
        List.Forall₂ (fun run batch => IsDigest (run.map (·.event)) batch) runs
          [[.deleted "//a", .headMoved], [.created "/a"]] := by
  intro events
  have horder : Chronological events := by decide
  have hgap : events.IsChain fun a b => a.time + 100 ≠ b.time := by decide
  have hbatches : (ofEvents events).batches 100 =
      [[.deleted "//a", .headMoved], [.created "/a"]] := by decide +kernel
  refine ⟨horder, hgap, hbatches, ?_⟩
  exact ((batches_eq_iff_digests_of_maximal_runs horder hgap).1 _).mp hbatches

end Inbox

end StyleVars
