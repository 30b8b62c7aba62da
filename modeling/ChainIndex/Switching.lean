import ChainIndex.Ancestry

/-!
# Switching branches

Taking a track back to an ancestor, one block and one commit at a time, and
replaying a branch on it in the same way.  Both tracks use the same acts.

A fault or a wish to stop in the middle leaves the track at its last commit, and
the recorded tips are enough to take the work up again: the concurrent track is
first aligned with the serial one, and then a new switch is planned.
-/

namespace ChainIndex

namespace Switching

variable (host : Host σ)

def checkStop : Act σ Unit := do
  if ← Act.stopWanted then Act.fail (.aborted "shutdown requested") else pure ()

def rewindTurn (track : Track) (ancestor : BlockHash) (undone : Nat) : Act σ (Turn Nat Nat) := do
  let tip ← Act.tip track
  if tip.hash = ancestor then pure (.done undone)
  else if tip.height = 0 then Act.fail (.noCommonAncestor tip.hash ancestor)
  else do
    checkStop
    let block ← Act.blockAt host (.byHash tip.hash)
    Act.stepBlock host track block .undo
    pure (.again (undone + 1))

/-- Undoes blocks until the track's tip is the ancestor; tells how many. -/
def rewind (track : Track) (ancestor : BlockHash) : Act σ Nat :=
  Act.loop host (rewindTurn host track ancestor) 0

def replayOne (track : Track) (hash : BlockHash) : Act σ Unit := do
  checkStop
  let block ← Act.blockAt host (.byHash hash)
  let tip ← Act.tip track
  let fits ← Act.ofExcept (orOverflow (block.extends? tip))
  if fits then Act.stepBlock host track block .apply else Act.fail (.gap hash track tip)

def replay (track : Track) : List BlockHash → Act σ Nat
  | [] => pure 0
  | hash :: rest => do
      replayOne host track hash
      let more ← replay track rest
      pure (more + 1)

/-- Brings the concurrent track to the serial tip, if they differ. -/
def align : Act σ (Option Switch) := do
  let concurrent ← Act.tip .concurrent
  let serial ← Act.tip .serial
  if concurrent = serial then pure none
  else do
    let switch ← Ancestry.find host concurrent.hash serial.hash
    let _ ← rewind host .concurrent switch.ancestor
    let _ ← replay host .concurrent switch.chain
    pure (some switch)

/-- The switch from the serial tip to the best block, if one is needed.  A tip
that is found on the best chain by its height needs none, unless a fork has been
seen: then only the best block itself will do. -/
def plan (forkSeen : Bool) : Act σ (Option Switch) := do
  let serial ← Act.tip .serial
  let best ← Act.bestHash host
  if best = serial.hash then pure none
  else if forkSeen then do
    let switch ← Ancestry.find host serial.hash best
    pure (some switch)
  else do
    let found ← Act.hashAt host serial.height
    if found = some serial.hash then pure none
    else do
      let switch ← Ancestry.find host serial.hash best
      pure (some switch)

/-- Carries a switch out: back to the ancestor, the serial track first, and then
up the new branch, the concurrent track first. -/
def carryOut (switch : Switch) : Act σ Unit := do
  if switch.isForward then pure () else Act.emit (.switched switch.ancestor)
  let _ ← rewind host .serial switch.ancestor
  let _ ← rewind host .concurrent switch.ancestor
  let _ ← replay host .concurrent switch.chain
  let _ ← replay host .serial switch.chain
  pure ()

end Switching

end ChainIndex
