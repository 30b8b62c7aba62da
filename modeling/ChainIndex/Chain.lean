import ChainIndex.Fault

/-!
# A chain held in memory

A tree of blocks by hash, one branch of which is the best chain.  The best chain
is kept as the list of its hashes from genesis up, apart from the blocks, so that
a block may be forgotten while its hash stays on the chain.
-/

namespace ChainIndex

structure Chain where
  /-- The known blocks; no two have the same hash. -/
  blocks : List Block
  best : List BlockHash

namespace Chain

def ofGenesis (genesis : Block) : Chain :=
  ⟨[genesis], [genesis.hash]⟩

def find? (chain : Chain) (hash : BlockHash) : Option Block :=
  chain.blocks.find? fun block => block.hash = hash

/-!
# Changing the chain
-/

def forget (chain : Chain) (hash : BlockHash) : Chain :=
  { chain with blocks := chain.blocks.filter fun block => block.hash ≠ hash }

/-- Takes a block into the tree, in place of one with the same hash. -/
def insert (chain : Chain) (block : Block) : Chain :=
  { chain with blocks := block :: (chain.forget block.hash).blocks }

def extend (block : Block) : ExceptT Fault (StateM Chain) Unit := do
  let tip := (← get).best.getLast?.getD ""
  if block.parent ≠ some tip then
    throw (.offBest block.hash tip)
  modify fun chain => { chain with best := chain.best ++ [block.hash] }
  modify (·.insert block)

/-- The extended chain, if the block extends it. -/
def push (chain : Chain) (block : Block) : Except Fault Chain :=
  let (answer, after) := (extend block).run.run chain
  answer.map fun () => after

/-- The hashes from the given one down to a parentless block, in ascending order,
before those of `above`.  A walk with more steps than there are blocks never
comes to an end. -/
def ancestry (chain : Chain) : (steps : Nat) → BlockHash → List BlockHash →
    Except Halt (List BlockHash)
  | 0, _, _ => .error .abandoned
  | steps + 1, hash, above =>
      match chain.find? hash with
      | none => .error (.fault (.notFound s!"block {hash}"))
      | some block =>
          match block.parent with
          | none => .ok (hash :: above)
          | some parent => chain.ancestry steps parent (hash :: above)

def setBest (hash : BlockHash) : ExceptT Halt (StateM Chain) Unit := do
  let chain ← get
  let best ← chain.ancestry (chain.blocks.length + 1) hash []
  modify ({ · with best })

/-!
# Asking the chain
-/

def blockAt (chain : Chain) (place : Lookup) : Except Fault Block :=
  let hash := match place with
    | .byHash hash => some hash
    | .byHeight height => chain.best[height.toNat]?
  match hash.bind chain.find? with
  | some block => .ok block
  | none => .error (.notFound place.text)

def headerOf (chain : Chain) (hash : BlockHash) : Except Fault Header :=
  match chain.find? hash with
  | some block => .ok block.header
  | none => .error (.notFound s!"header {hash}")

def bestHash (chain : Chain) : Except Fault BlockHash :=
  match chain.best.getLast? with
  | some hash => .ok hash
  | none => .error (.notFound "best block")

def bestHeight (chain : Chain) : UInt64 :=
  UInt64.ofNat (chain.best.length - 1)

end Chain

end ChainIndex
