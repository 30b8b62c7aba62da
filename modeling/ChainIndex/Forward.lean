import ChainIndex.World.Act

/-!
# Forward sync

Blocks above the serial tip are taken in by height until the best block is
reached.  Each turn has three stages:

* a block is fetched, unless as many blocks are in flight as allowed;
* the concurrent track commits a group of blocks, if a full one is waiting, or a
  part of one if no block will join it for now;
* the serial track commits the oldest block, if the concurrent track has passed it.

The run ends when nothing is left to fetch and nothing is in flight, or as soon
as a stop is wanted.  A block that does not build on the newest one in flight, or
a height that the chain no longer reaches, means that the best chain has moved:
what is in flight is still committed, and the fork is reported.
-/

namespace ChainIndex

namespace Forward

inductive Outcome where
  | synced (tip : Pointer)
  | forked (height : UInt64)
  | stopped (tip : Pointer)
deriving DecidableEq

/-!
# The intake
-/

def reset (intake : Intake) (tip : Pointer) (nextHeight : UInt64) : Intake :=
  { intake with
    inFlight := []
    grouped := 0
    nextHeight := nextHeight
    lastHash := tip.hash
    bestHash := ""
    exhausted := false
    forkAt := none }

def isFull (intake : Intake) : Bool :=
  intake.highWater ≤ intake.inFlight.length

/-- How many blocks in flight the concurrent track has not passed. -/
def pending (intake : Intake) : Nat :=
  intake.inFlight.length - intake.grouped

/-- No block will join the pending ones for now. -/
def isStalled (intake : Intake) : Bool :=
  intake.exhausted || isFull intake

def groupReady (intake : Intake) : Bool :=
  intake.groupSize ≤ pending intake || (0 < pending intake && isStalled intake)

def nextGroup (intake : Intake) : List Block :=
  (intake.inFlight.drop intake.grouped).take (min (pending intake) intake.groupSize)

def nextSerial? (intake : Intake) (concurrent : Pointer) : Option Block :=
  if 0 < intake.grouped then
    intake.inFlight.head?.filter fun block => block.height ≤ concurrent.height
  else none

/-- The announced block if it has the next height; it is given up once its height
has gone by. -/
def takeAnnounced (intake : Intake) : Option Block × Intake :=
  match intake.announced with
  | some block =>
      if block.height = intake.nextHeight then (some block, { intake with announced := none })
      else if block.height < intake.nextHeight then (none, { intake with announced := none })
      else (none, intake)
  | none => (none, intake)

variable (host : Host σ)

/-!
# Fetching
-/

/-- Whether there is a block beyond the newest one.  The best hash is asked for
when none is known and when the newest block is the best one known, since the
chain may have grown. -/
def moreToFetch : Act σ Bool := do
  let intake ← Act.intake
  if intake.lastHash = intake.bestHash || intake.bestHash = "" then do
    let best ← Act.bestHash host
    Act.changeIntake fun intake => { intake with bestHash := best }
    pure (intake.lastHash ≠ best)
  else pure true

def noteFork (height : UInt64) : Act σ Unit :=
  Act.changeIntake fun intake => { intake with forkAt := some height }

def candidate : Act σ (Option Block) := do
  let intake ← Act.intake
  let (announced, intake) := takeAnnounced intake
  Act.changeIntake fun _ => intake
  match announced with
  | some block => pure (some block)
  | none => do
      match ← Act.attempt (Act.blockAt host (.byHeight intake.nextHeight)) with
      | .ok block => pure (some block)
      | .error (.notFound _) => do
          noteFork intake.nextHeight
          pure none
      | .error cause => Act.fail cause

def fetch : Act σ (Option Block) := do
  if ← moreToFetch host then do
    match ← candidate host with
    | none => pure none
    | some block => do
        let intake ← Act.intake
        if block.parent = some intake.lastHash then pure (some block)
        else do
          noteFork block.height
          pure none
  else pure none

def takeIn (block : Block) : Act σ Unit := do
  let intake ← Act.intake
  let next ← Act.ofExcept (orOverflow (heightAbove? intake.nextHeight))
  Act.changeIntake fun intake =>
    { intake with
      lastHash := block.hash
      nextHeight := next
      inFlight := intake.inFlight ++ [block] }

def fetchStage : Act σ Unit := do
  let intake ← Act.intake
  if intake.exhausted || isFull intake then pure ()
  else do
    match ← fetch host with
    | some block => takeIn block
    | none => Act.changeIntake fun intake => { intake with exhausted := true }

/-!
# Committing
-/

def consultAll (track : Track) : List Block → Act σ (List Edit)
  | [] => pure []
  | block :: rest => do
      let edits ← Act.consult host track block .apply
      let more ← consultAll track rest
      pure (edits ++ more)

def commitGroup (group : List Block) : Act σ Unit :=
  match group.getLast? with
  | none => pure ()
  | some last => do
      let edits ← consultAll host .concurrent group
      Act.commit host .concurrent edits last.pointer
      Act.changeIntake fun intake => { intake with grouped := intake.grouped + group.length }

def groupStage : Act σ Unit := do
  let intake ← Act.intake
  if groupReady intake then commitGroup host (nextGroup intake) else pure ()

def commitSerial (block : Block) : Act σ Unit := do
  Act.stepBlock host .serial block .apply
  Act.changeIntake fun intake =>
    { intake with inFlight := intake.inFlight.tail, grouped := intake.grouped - 1 }
  Act.emit (.indexed block.height)

def serialStage : Act σ Unit := do
  let intake ← Act.intake
  let concurrent ← Act.tip .concurrent
  match nextSerial? intake concurrent with
  | some block => commitSerial host block
  | none => pure ()

/-!
# The run
-/

def isOver (intake : Intake) : Bool :=
  intake.exhausted && intake.inFlight.isEmpty

def finish : Act σ Outcome := do
  let intake ← Act.intake
  let tip ← Act.tip .serial
  match intake.forkAt with
  | some height => pure (.forked height)
  | none => do
      Act.emit (.synced tip.height)
      pure (.synced tip)

def turn (_ : Unit) : Act σ (Turn Unit Outcome) := do
  if ← Act.stopWanted then do
    let tip ← Act.tip .serial
    pure (.done (.stopped tip))
  else do
    fetchStage host
    groupStage host
    serialStage host
    let intake ← Act.intake
    if isOver intake then do
      let outcome ← finish
      pure (.done outcome)
    else pure (.again ())

def run : Act σ Outcome := do
  let concurrent ← Act.tip .concurrent
  let serial ← Act.tip .serial
  if concurrent = serial then do
    let next ← Act.ofExcept (orOverflow (heightAbove? serial.height))
    Act.changeIntake fun intake => reset intake serial next
    Act.loop host (turn host) ()
  else Act.fail (.misaligned concurrent serial)

end Forward

end ChainIndex
