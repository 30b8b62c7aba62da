import ChainIndex.Fault

/-!
# Events and phases

An indexer reports what it does as a stream of events, and publishes the phase
it is in.
-/

namespace ChainIndex

inductive Event where
  /-- The serial track moved onto a block. -/
  | added (hash : BlockHash) (height : UInt64)
  /-- The serial track moved off a block. -/
  | removed (hash : BlockHash) (height : UInt64)
  /-- Forward sync committed the block at this height on both tracks. -/
  | indexed (height : UInt64)
  | synced (height : UInt64)
  | switched (ancestor : BlockHash)
  | failed (fault : Fault)
deriving DecidableEq

inductive Phase where
  | idle
  | syncing
  | reorging
  | synced
  | stopping
  | stopped
  | error
deriving DecidableEq

namespace Phase

def all : List Phase :=
  [.idle, .syncing, .reorging, .synced, .stopping, .stopped, .error]

def text : Phase → String
  | .idle => "idle"
  | .syncing => "syncing"
  | .reorging => "reorging"
  | .synced => "synced"
  | .stopping => "stopping"
  | .stopped => "stopped"
  | .error => "error"

end Phase

end ChainIndex
