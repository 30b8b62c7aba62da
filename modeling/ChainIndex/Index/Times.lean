import ChainIndex.Index.Basic

/-!
# Times

The index of blocks by time.  Blocks may state times that stand still or run
backwards; each block is assigned the time it states, or one second more than
its predecessor's if that is later, so that assigned times ascend along the
chain.  An assigned time depends on the block before, so the index rides the
serial track.

The key of a time is its sixteen hexadecimal digits with the sign bit flipped,
which makes the byte order of the keys the order of the times.
-/

namespace ChainIndex

namespace Times

def name : String := "timestamp"

def blockKey (hash : BlockHash) : Bytes :=
  Bytes.ofText "ts/b/" ++ Bytes.ofText hash

def timeStem : Bytes :=
  Bytes.ofText "ts/t/"

def lastKey : Bytes :=
  Bytes.ofText "ts/last"

def fromLeast (time : Int64) : Nat :=
  (time.toInt - Int64.minValue.toInt).toNat

def timeKey (time : Int64) : Bytes :=
  timeStem ++ Numeral.hex 16 (fromLeast time)

def written (time : Int64) : Bytes :=
  Numeral.signed time.toInt

def next? (time : Int64) : Option Int64 :=
  if time < Int64.maxValue then some (time + 1) else none

def last (view : View) : Except Fault (Option Int64) := do
  match ← view.get? lastKey with
  | some bytes => return some (← storedInteger name bytes)
  | none => return none

def timeOf (view : View) (hash : BlockHash) : Except Fault (Option Int64) := do
  match ← view.get? (blockKey hash) with
  | some bytes => return some (← storedInteger name bytes)
  | none => return none

def assign (stated : Int64) : Option Int64 → Option Int64
  | none => some stated
  | some last => if stated ≤ last then next? last else some stated

def applied (block : Block) (time : Int64) : List Edit :=
  [.put (blockKey block.hash) (written time),
    .put (timeKey time) (Bytes.ofText block.hash),
    .put lastKey (written time)]

/-- Takes a block's entries out again and restores the last time to its parent's. -/
def undone (block : Block) (time : Int64) (parentTime : Option Int64) : List Edit :=
  [.erase (blockKey block.hash),
    .erase (timeKey time),
    match parentTime with
    | some t => .put lastKey (written t)
    | none => .erase lastKey]

def parentTime (view : View) (block : Block) : Except Fault (Option Int64) :=
  match block.parent with
  | some parent => timeOf view parent
  | none => .ok none

def edits (block : Block) (direction : Direction) (view : View) : Except Halt (List Edit) :=
  match direction with
  | .apply => do
      let last ← ofFault (last view)
      let time ← orOverflow (assign block.header.timestamp last)
      return applied block time
  | .undo => ofFault do
      match ← timeOf view block.hash with
      | some time => return undone block time (← parentTime view block)
      | none => throw (.service name s!"block {block.hash} was never indexed")

def index : Index :=
  ⟨name, true, edits⟩

/-- The hashes of the blocks with assigned times from `first` to `final`, in
the order of those times. -/
def between (view : View) (first final : Int64) : Except Fault (List BlockHash) :=
  if final < first then .ok []
  else do
    let stop := match next? final with
      | some time => some (timeKey time)
      | none => timeStem.ceiling
    let entries ← view.scan (timeKey first) stop
    entries.mapM fun entry => storedText name entry.2

end Times

end ChainIndex
