import ChainIndex.Index.Basic

/-!
# Heights and hashes

The index from hashes to heights and back.  Neither entry of a block depends on
any other block, so the index rides the concurrent track.

A height is written in decimal where it is a value.  It is read back as a signed
integer, so a height of 2⁶³ or more is written but cannot be read.
-/

namespace ChainIndex

namespace Heights

def name : String := "block"

def hashKey (hash : BlockHash) : Bytes :=
  Bytes.ofText "block/h/" ++ Bytes.ofText hash

def heightKey (height : UInt64) : Bytes :=
  Bytes.ofText "block/n/" ++ Numeral.hex 16 height.toNat

def edits (block : Block) : Direction → List Edit
  | .apply =>
      [.put (hashKey block.hash) (Numeral.decimal block.height.toNat),
        .put (heightKey block.height) (Bytes.ofText block.hash)]
  | .undo => [.erase (hashKey block.hash), .erase (heightKey block.height)]

def index : Index :=
  ⟨name, false, fun block direction _ => .ok (edits block direction)⟩

def heightOf (view : View) (hash : BlockHash) : Except Fault (Option UInt64) := do
  match ← view.get? (hashKey hash) with
  | some bytes => return some (← storedInteger name bytes).toUInt64
  | none => return none

def hashAt (view : View) (height : UInt64) : Except Fault (Option BlockHash) := do
  match ← view.get? (heightKey height) with
  | some bytes => return some (← storedText name bytes)
  | none => return none

end Heights

end ChainIndex
