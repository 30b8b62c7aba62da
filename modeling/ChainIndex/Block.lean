import ChainIndex.Bytes

/-!
# Blocks and pointers

The nouns of a chain of blocks.  A block is named by its hash, an opaque text,
and states its own height and the hash of its parent; nothing here checks those
statements.  A pointer says how far something has come along a chain.
-/

namespace ChainIndex

abbrev BlockHash := String

structure Header where
  hash : BlockHash
  /-- Absent for a genesis block only. -/
  parent : Option BlockHash
  height : UInt64
  /-- Seconds since 1970, as the block states them. -/
  timestamp : Int64
deriving DecidableEq

structure Transaction where
  id : String
  raw : Bytes
deriving DecidableEq

def Transaction.ofId (id : String) : Transaction :=
  ⟨id, []⟩

structure Block where
  header : Header
  transactions : List Transaction
deriving DecidableEq

structure Pointer where
  hash : BlockHash
  height : UInt64
deriving DecidableEq, Inhabited

namespace Block

def hash (block : Block) : BlockHash := block.header.hash

def parent (block : Block) : Option BlockHash := block.header.parent

def height (block : Block) : UInt64 := block.header.height

def pointer (block : Block) : Pointer := ⟨block.hash, block.height⟩

end Block

def Pointer.text (pointer : Pointer) : String :=
  s!"{pointer.hash}@{pointer.height}"

def heightAbove? (height : UInt64) : Option UInt64 :=
  if height.toNat + 1 < UInt64.size then some (height + 1) else none

/-- Whether the block sits directly on the pointer: one higher, and with the
pointer's hash for parent.  There is no answer where no height is one higher. -/
def Block.extends? (block : Block) (tip : Pointer) : Option Bool :=
  (heightAbove? tip.height).map fun next => block.height = next ∧ block.parent = some tip.hash

/-!
# Ways to name a block
-/

inductive Lookup where
  | byHash (hash : BlockHash)
  | byHeight (height : UInt64)
deriving DecidableEq

def Lookup.text : Lookup → String
  | .byHash hash => s!"block {hash}"
  | .byHeight height => s!"block at height {height}"

/-!
# Tracks

Every index is advanced along one of two tracks.  Those whose entries do not
depend on the order of blocks ride the concurrent one, where several blocks may
be committed at once; the others ride the serial one, a block at a time.
-/

inductive Track where
  | concurrent
  | serial
deriving DecidableEq

def Track.text : Track → String
  | .concurrent => "concurrent"
  | .serial => "serial"

inductive Direction where
  | apply
  | undo
deriving DecidableEq

/-!
# Switches

A switch leaves one branch for another: back to the ancestor that both share,
then up the listed hashes, which follow the ancestor in ascending order.
-/

structure Switch where
  ancestor : BlockHash
  leaving : BlockHash
  chain : List BlockHash
deriving DecidableEq

def Switch.isForward (switch : Switch) : Bool :=
  switch.ancestor = switch.leaving

end ChainIndex
