import ChainIndex.Block

/-!
# Faults

What can go wrong while the indexes follow a chain, one constructor for each
cause, with its wording in one place.

A fault is transient when a later notification may cure it: the chain could not
be reached or did not know the block.  Nothing is lost on these, since every
commit is atomic and the next attempt resumes from the last committed tip.  Any
other fault is fatal.

Besides faults, which are values that a caller may inspect, a computation may be
cut short altogether: by a height or a timestamp beyond the machine's words, by a
buffer that there is no room for, or because whoever drove it let go of it.
-/

namespace ChainIndex

inductive Fault where
  | chain (reason : String)
  | notFound (what : String)
  | storage (reason : String)
  | service (name reason : String)
  | noCommonAncestor (old new : BlockHash)
  | aborted (reason : String)
  | genesisUndone (hash : BlockHash)
  | gap (hash : BlockHash) (track : Track) (tip : Pointer)
  | misaligned (concurrent serial : Pointer)
  | offBest (hash tip : BlockHash)
  | zeroSetting (name : String)
  | other (reason : String)
deriving DecidableEq

namespace Fault

def message : Fault → String
  | .chain reason => s!"chain source error: {reason}"
  | .notFound what => s!"not found: {what}"
  | .storage reason => s!"storage error: {reason}"
  | .service name reason => s!"index service '{name}' failed: {reason}"
  | .noCommonAncestor old new => s!"unknown common ancestor between {old} and {new}"
  | .aborted reason => s!"engine aborted: {reason}"
  | .genesisUndone hash => s!"cannot undo genesis block {hash}"
  | .gap hash track tip => s!"block {hash} does not extend {track.text} tip {tip.text}"
  | .misaligned concurrent serial =>
      s!"tips not aligned: concurrent {concurrent.text} serial {serial.text}"
  | .offBest hash tip => s!"block {hash} does not extend best tip {tip}"
  | .zeroSetting name => s!"config: {name} must be at least 1"
  | .other reason => reason

def isTransient : Fault → Bool
  | .chain _ | .notFound _ => true
  | _ => false

def isFatal (fault : Fault) : Bool :=
  !fault.isTransient

/-- A fault raised inside an index service is laid to that service, unless a
service has been named already. -/
def within (name : String) : Fault → Fault
  | .service inner reason => .service inner reason
  | fault => .service name fault.message

end Fault

inductive NoRoom where
  /-- A feed must be able to keep an event. -/
  | feedEmpty
  /-- More events than a feed may count. -/
  | feedTooLong
  /-- More bytes than a feed may take. -/
  | feedTooLarge
  /-- More notifications than a queue may count. -/
  | queueTooLong
deriving DecidableEq

/-- How a computation ends without a result. -/
inductive Halt where
  | fault (cause : Fault)
  /-- A sum left the range of its machine word. -/
  | overflow
  | noRoom (cause : NoRoom)
  /-- The computation was let go before it came to an end. -/
  | abandoned
deriving DecidableEq

def Halt.mapFault (f : Fault → Fault) : Halt → Halt
  | .fault cause => .fault (f cause)
  | .overflow => .overflow
  | .noRoom cause => .noRoom cause
  | .abandoned => .abandoned

def orOverflow : Option α → Except Halt α
  | some a => .ok a
  | none => .error .overflow

def ofFault : Except Fault α → Except Halt α
  | .ok a => .ok a
  | .error fault => .error (.fault fault)

end ChainIndex
