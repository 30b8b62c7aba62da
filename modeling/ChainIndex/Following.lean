import ChainIndex.Feed
import ChainIndex.Forward
import ChainIndex.Switching

/-!
# Following a chain

One worker alternates between switching branches and forward sync.  A cycle
first aligns the tracks, then switches if the serial tip has left the best chain,
and then syncs forward; a fork seen on the way starts the cycle again.

A follower left to run repeats this whenever it is notified.  It ends when it is
told to stop, when its last caller has gone, or on a fatal fault; after a
transient one it waits for the next notification.
-/

namespace ChainIndex

namespace Following

/-!
# Opening
-/

/-- Starts a follower on the table, at the tips recorded there or else at the
chain's genesis, once there is room for its events and notifications.  Nothing
changes hands if this fails. -/
def start (host : Host σ) (settings : Settings) : Act σ Unit := do
  Act.ofExcept (ofFault settings.validate)
  let genesis ← Act.blockAt host (.byHeight 0)
  let seen ← Act.view host
  let frontier ← Act.ofExcept (ofFault (Frontier.load seen genesis.pointer))
  Act.ofExcept (Feed.allot settings.eventCapacity)
  Act.ofExcept (Inbox.allot settings.noticeCapacity)
  Act.change fun world => { world with toFollower := .fresh settings frontier }

/-!
# One sync
-/

def drain (inbox : Inbox) (intake : Intake) : Intake :=
  inbox.queue.foldl Intake.announce intake

def takeNotices : Act σ Unit :=
  Act.change fun world =>
    { world with
      intake := drain world.inbox world.intake
      inbox := { world.inbox with queue := [] } }

def serialTip : Act σ Pointer :=
  Act.tip .serial

def haltHere : Act σ (Turn Bool Pointer) := do
  Act.enter .stopping
  let tip ← serialTip
  pure (.done tip)

variable (host : Host σ)

def switchIfNeeded (forkSeen : Bool) : Act σ Unit := do
  match ← Switching.plan host forkSeen with
  | none => pure ()
  | some switch => do
      if switch.isForward then pure () else Act.enter .reorging
      Switching.carryOut host switch

def cycle (forkSeen : Bool) : Act σ Forward.Outcome := do
  let isLevel ← Act.see fun world => world.frontier.isLevel
  Act.enter (if isLevel then .syncing else .reorging)
  let _ ← Switching.align host
  switchIfNeeded host forkSeen
  Act.enter .syncing
  Forward.run host

/-- What follows from the end of a cycle.  A fault that comes of a wish to stop is
no fault. -/
def afterCycle : Except Fault Forward.Outcome → Act σ (Turn Bool Pointer)
  | .ok (.synced tip) => do
      Act.enter .synced
      pure (.done tip)
  | .ok (.forked _) => pure (.again true)
  | .ok (.stopped tip) => do
      Act.enter .stopping
      pure (.done tip)
  | .error (.aborted reason) => do
      if ← Act.stopWanted then haltHere else Act.fail (.aborted reason)
  | .error cause => Act.fail cause

def syncTurn (forkSeen : Bool) : Act σ (Turn Bool Pointer) := do
  takeNotices
  if ← Act.stopWanted then haltHere
  else do
    let outcome ← Act.attempt (cycle host forkSeen)
    afterCycle outcome

def sync : Act σ Pointer :=
  Act.loop host (syncTurn host) false

/-!
# The run
-/

inductive Rest where
  | waiting
  | ended (phase : Phase)
deriving DecidableEq

def wind : Act σ Rest := do
  Act.enter .stopping
  Act.enter .stopped
  pure (.ended .stopped)

/-- What a waiting run does about its inbox: a notification or a wish to stop
takes it back to work, and it ends when no caller is left to wait for. -/
def wake : Act σ (Turn Unit Rest) := do
  let inbox ← Act.see fun world => world.inbox
  match inbox.queue with
  | block :: rest => do
      Act.change fun world =>
        { world with
          intake := world.intake.announce block
          inbox := { world.inbox with queue := rest } }
      pure (.again ())
  | [] =>
      if !inbox.attached then do
        let rest ← wind
        pure (.done rest)
      else if inbox.stopWanted then pure (.again ())
      else pure (.done .waiting)

def afterSync : Except Fault Pointer → Act σ (Option Rest)
  | .ok _ => pure none
  | .error cause => do
      Act.emit (.failed cause)
      if cause.isFatal then do
        Act.enter .error
        pure (some (.ended .error))
      else do
        Act.enter .idle
        pure none

def runTurn (_ : Unit) : Act σ (Turn Unit Rest) := do
  if ← Act.stopWanted then do
    let rest ← wind
    pure (.done rest)
  else do
    let result ← Act.attempt (sync host)
    match ← afterSync result with
    | some rest => pure (.done rest)
    | none => do
        if ← Act.stopWanted then do
          let rest ← wind
          pure (.done rest)
        else wake

def run : Act σ Rest :=
  Act.loop host (runTurn host) ()

def resume : Act σ Rest := do
  match ← wake with
  | .done rest => pure rest
  | .again () => run host

end Following

end ChainIndex
