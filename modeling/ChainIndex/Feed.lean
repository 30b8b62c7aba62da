import ChainIndex.Event

/-!
# Feeds

A feed keeps the events that its listener has not read yet.  It has a power of
two of slots, at least as many as were asked for; when they are all taken, the
oldest event gives way, and the listener is told how many were lost.

The slots are set up when the feed is, so a feed is refused for which there is
no room: its capacity must be a positive number of at most 63 bits, and all its
slots together must be addressable.
-/

namespace ChainIndex

namespace Feed

/-- The least power of two that is not below `n`, for `n` below 2⁶⁴. -/
def slots (n : Nat) : Nat :=
  ((List.range 65).map (Nat.pow 2)).find? (n ≤ ·) |>.getD n

def slotBytes : Nat := 80

def maxCapacity : Nat :=
  UInt64.size / 2 - 1

def maxBytes : Nat :=
  UInt64.size / 2 - 1

def allot (capacity : Nat) : Except Halt Unit :=
  if capacity = 0 then .error (.noRoom .feedEmpty)
  else if maxCapacity < capacity then .error (.noRoom .feedTooLong)
  else if maxBytes < slots capacity * slotBytes then .error (.noRoom .feedTooLarge)
  else .ok ()

inductive Heard where
  | event (event : Event)
  /-- This many events were lost before they could be read. -/
  | lagged (lost : Nat)

def read (capacity : Nat) (events : List Event) : List Heard :=
  let lost := events.length - slots capacity
  let kept := (events.drop lost).map Heard.event
  if lost = 0 then kept else .lagged lost :: kept

end Feed

end ChainIndex
