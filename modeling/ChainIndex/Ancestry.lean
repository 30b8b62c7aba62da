import ChainIndex.World.Act

/-!
# Common ancestors

Two walks go down the chain from an old and a new hash, one parent at a time and
in step, until one of them comes upon a hash that the other has visited.  A walk
ends at a block that is unknown or states no parent.

The new walk keeps its hashes in ascending order.  It may have gone past the
ancestor by the time the old walk finds it, so the branch to follow is what comes
after the ancestor.
-/

namespace ChainIndex

namespace Ancestry

structure Walks where
  /-- Where each walk stands, unless it has ended. -/
  oldAt : Option BlockHash
  newAt : Option BlockHash
  oldSeen : List BlockHash
  /-- The hashes the new walk has visited, in ascending order. -/
  newSeen : List BlockHash

def begin (old new : BlockHash) : Walks :=
  ⟨some old, some new, [old], [new]⟩

/-- A hash at which one walk stands and that the other has visited. -/
def meeting? (walks : Walks) : Option BlockHash :=
  match walks.newAt.filter (walks.oldSeen.contains ·) with
  | some hash => some hash
  | none => walks.oldAt.filter (walks.newSeen.contains ·)

variable (host : Host σ)

def descend : Option BlockHash → Act σ (Option BlockHash)
  | some hash => Act.parentOf host hash
  | none => pure none

/-- What a branch holds above the given hash. -/
def above (ancestor : BlockHash) (branch : List BlockHash) : Option (List BlockHash) :=
  match branch.dropWhile (· ≠ ancestor) with
  | [] => none
  | _ :: rest => some rest

def turn (old new : BlockHash) (walks : Walks) : Act σ (Turn Walks Switch) :=
  match meeting? walks with
  | some ancestor =>
      match above ancestor walks.newSeen with
      | some chain => pure (.done ⟨ancestor, old, chain⟩)
      | none => Act.fail (.noCommonAncestor old new)
  | none =>
      if walks.oldAt.isNone && walks.newAt.isNone then Act.fail (.noCommonAncestor old new)
      else do
        let oldAt ← descend host walks.oldAt
        let newAt ← descend host walks.newAt
        pure (.again ⟨oldAt, newAt, oldAt.toList ++ walks.oldSeen, newAt.toList ++ walks.newSeen⟩)

/-- The switch from the branch of one hash to the branch of another. -/
def find (old new : BlockHash) : Act σ Switch :=
  Act.loop host (turn host old new) (begin old new)

end Ancestry

end ChainIndex
