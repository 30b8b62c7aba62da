import ChainIndex.Frontier

/-!
# The world of an indexer

An indexer works between a chain that others extend, a table that it alone
writes, and callers who may notify it of blocks or ask it to stop at any moment.

Everything the indexer does not decide itself is a host: a set of functions over
a state of the host's own, which the indexer never looks into.  Each call to the
host yields an answer and the signals that callers sent while the call was under
way.  A host may answer the same question differently every time, fail, or cut
the computation short; nothing is assumed of it.

The world is what the indexer acts on: the host's state, the table, the
indexer's own memory, and the course of all that has happened so far.
-/

namespace ChainIndex

/-!
# Callers
-/

inductive Signal where
  /-- A new block has been heard of. -/
  | notify (block : Block)
  /-- Work is to stop, or, where callers may change their mind, to go on. -/
  | stop (wanted : Bool)
  /-- The last caller has gone. -/
  | release
deriving DecidableEq

/-- What callers have sent and the indexer has not looked at yet. -/
structure Inbox where
  queue : List Block
  capacity : Nat
  stopWanted : Bool
  /-- Some caller is still there. -/
  attached : Bool
deriving DecidableEq

namespace Inbox

def ofCapacity (capacity : Nat) : Inbox :=
  ⟨[], capacity, false, true⟩

def maxCapacity : Nat :=
  UInt64.size / 8 - 1

def allot (capacity : Nat) : Except Halt Unit :=
  if maxCapacity < capacity then .error (.noRoom .queueTooLong) else .ok ()

/-- A notification that finds the queue full is dropped without a word, and no
signal arrives once the last caller has gone. -/
def receive (inbox : Inbox) (signal : Signal) : Inbox :=
  if inbox.attached then
    match signal with
    | .notify block =>
        if inbox.queue.length < inbox.capacity then
          { inbox with queue := inbox.queue ++ [block] }
        else inbox
    | .stop wanted => { inbox with stopWanted := wanted }
    | .release => { inbox with attached := false }
  else inbox

end Inbox

/-!
# The indexer's memory
-/

/-- Forward sync's account of the blocks it has taken in. -/
structure Intake where
  groupSize : Nat
  highWater : Nat
  /-- The block announced last, to be used if its height comes up. -/
  announced : Option Block
  /-- Fetched and not yet serially committed, oldest first. -/
  inFlight : List Block
  /-- How many of these, from the front, the concurrent tip has passed. -/
  grouped : Nat
  nextHeight : UInt64
  lastHash : BlockHash
  /-- The best hash heard last; empty until one has been asked for. -/
  bestHash : BlockHash
  /-- The source has no further block for this run. -/
  exhausted : Bool
  forkAt : Option UInt64
deriving DecidableEq

def Intake.idle (groupSize highWater : Nat) : Intake :=
  ⟨groupSize, highWater, none, [], 0, 0, "", "", false, none⟩

def Intake.announce (intake : Intake) (block : Block) : Intake :=
  { intake with announced := some block }

structure Follower where
  frontier : Frontier
  intake : Intake
  inbox : Inbox
  phase : Phase
deriving DecidableEq

def Follower.fresh (settings : Settings) (frontier : Frontier) : Follower :=
  ⟨frontier, .idle settings.groupSize settings.highWater, .ofCapacity settings.noticeCapacity,
    .idle⟩

/-!
# The course of events
-/

inductive Entry where
  | askedBlock (place : Lookup) (answer : Except Halt Block)
  | askedHeader (hash : BlockHash) (answer : Except Halt Header)
  | askedBest (answer : Except Halt BlockHash)
  | viewed (answer : Except Halt Outages)
  /-- A batch was offered to the table; it landed if the answer is not an error. -/
  | batch (edits : List Edit) (answer : Except Halt Unit)
  /-- The indexes of a track were asked for a block's edits under this view. -/
  | consulted (track : Track) (block : Block) (direction : Direction) (view : View)
  | emitted (event : Event)
  | entered (phase : Phase)
  | signalled (signal : Signal)

def Entry.event? : Entry → Option Event
  | .emitted event => some event
  | _ => none

/-!
# Hosts and worlds
-/

structure Reply (σ α : Type) where
  answer : Except Halt α
  outside : σ
  /-- What callers sent before the answer came, in order. -/
  signals : List Signal

structure Host (σ : Type) where
  blockAt : Lookup → σ → Reply σ Block
  headerOf : BlockHash → σ → Reply σ Header
  bestHash : σ → Reply σ BlockHash
  /-- Whether the table accepts a batch; an accepted batch lands as a whole. -/
  accept : List Edit → σ → Reply σ Unit
  /-- Which reads fail now.  Only a read itself meets with a fault. -/
  outages : σ → Reply σ Outages
  outages_ne_fault (outside : σ) (fault : Fault) : (outages outside).answer ≠ .error (.fault fault)
  catalogue : Catalogue
  /-- How many turns of a loop the host waits for before it lets go. -/
  patience : Nat

structure World (σ : Type) extends Follower where
  outside : σ
  table : Table
  /-- Newest first. -/
  course : List Entry

namespace World

def record (world : World σ) (entry : Entry) : World σ :=
  { world with course := entry :: world.course }

def receive (world : World σ) (signal : Signal) : World σ :=
  { world.record (.signalled signal) with inbox := world.inbox.receive signal }

/-- The world once a reply has come in: first its signals, then its answer. -/
def take (world : World σ) (reply : Reply σ α) (entry : Except Halt α → Entry) : World σ :=
  (reply.signals.foldl receive { world with outside := reply.outside }).record
    (entry reply.answer)

end World

end ChainIndex
