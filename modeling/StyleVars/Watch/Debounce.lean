import StyleVars.Watch.Event

/-!
# Debouncing

Events that follow each other quickly are handled as one burst, which ends when no event arrives for
a given delay. Within a burst only the last event for each path counts; paths keep the order in
which they first appear. All moves of the head count as one path.
-/

namespace StyleVars

/-- Let `event` take the place of the pending event for the same path, or come last. -/
def coalesceOne (event : FileEvent) : List FileEvent → List FileEvent
  | [] => [event]
  | pending :: rest =>
    if pending.path? = event.path? then event :: rest else pending :: coalesceOne event rest

/-- The events of a burst that count. -/
def coalesce (events : List FileEvent) : List FileEvent :=
  events.foldl (fun batch event => coalesceOne event batch) []

/-- An event with the time at which it happens. -/
structure TimedEvent where
  time : Nat
  event : FileEvent
deriving Repr, DecidableEq

/-- Divide events into bursts: a gap shorter than the delay, or no gap at all, keeps neighbours
together. -/
def bursts (delay : Nat) : List TimedEvent → List (List TimedEvent)
  | [] => []
  | e :: rest =>
    match rest, bursts delay rest with
    | next :: _, burst :: later =>
      if next.time - e.time < delay ∨ next.time = e.time then (e :: burst) :: later
      else [e] :: burst :: later
    | _, later => [e] :: later

/-- The batches of events that are handled one after the other. -/
def debounce (delay : Nat) (events : List TimedEvent) : List (List FileEvent) :=
  (bursts delay events).map fun burst => coalesce (burst.map (·.event))

end StyleVars
