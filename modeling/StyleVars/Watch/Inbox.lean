import StyleVars.Watch.Debounce

/-!
# Receiving events

Events arrive in the order in which they happen, and wait until they are received. Who handles them
waits for an event, and then for more events as long as each arrives before a delay has run out,
which starts anew with every event. What is received in this way is coalesced at once and makes a
batch. When no event is left, the batch ends, and no other follows.
-/

namespace StyleVars

/-- What a receiver has before it: the time, and the events that it has not received yet, those
included that are still to happen. -/
structure Inbox where
  now : Nat
  awaited : List TimedEvent
deriving Repr, DecidableEq

namespace Inbox

/-- All events are still to be received. -/
def ofEvents (events : List TimedEvent) : Inbox := ⟨0, events⟩

/-- Receive events into a batch, as long as the next one is there already or arrives before the
delay has run out. -/
def gather (delay : Nat) (batch : List FileEvent) (now : Nat) :
    List TimedEvent → List FileEvent × Inbox
  | [] => (batch, ⟨now, []⟩)
  | next :: later =>
    if next.time ≤ now ∨ next.time < now + delay then
      gather delay (coalesceOne next.event batch) (max now next.time) later
    else (batch, ⟨now + delay, next :: later⟩)

/-- Wait for an event and gather what follows it. There is no batch when no event is left. -/
def nextBatch? (delay : Nat) (inbox : Inbox) : Option (List FileEvent × Inbox) :=
  match inbox.awaited with
  | [] => none
  | first :: later => some (gather delay [first.event] (max inbox.now first.time) later)

theorem length_awaited_gather (delay : Nat) (batch : List FileEvent) (now : Nat)
    (later : List TimedEvent) :
    (gather delay batch now later).2.awaited.length ≤ later.length := by
  induction later generalizing batch now with
  | nil => exact Nat.le_refl _
  | cons next later ih =>
    unfold gather
    split
    · exact Nat.le_succ_of_le (ih _ _)
    · exact Nat.le_refl _

/-- A batch takes an event at least, so the batches come to an end. -/
theorem length_awaited_nextBatch? {delay : Nat} {inbox rest : Inbox} {batch : List FileEvent}
    (h : inbox.nextBatch? delay = some (batch, rest)) :
    rest.awaited.length < inbox.awaited.length := by
  unfold nextBatch? at h
  split at h
  · cases h
  · rename_i first later hawaited
    have hle := length_awaited_gather delay [first.event] (max inbox.now first.time) later
    rw [Option.some.inj h] at hle
    rw [hawaited]
    exact Nat.lt_succ_of_le hle

/-- The batches that are received one after the other, until no event is left. -/
def batches (delay : Nat) (inbox : Inbox) : List (List FileEvent) :=
  match h : inbox.nextBatch? delay with
  | none => []
  | some (batch, rest) =>
    have := length_awaited_nextBatch? h
    batch :: rest.batches delay
termination_by inbox.awaited.length

end Inbox

end StyleVars
