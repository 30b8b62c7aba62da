import ChainIndex.Index.Heights

/-!
# Scripted indexes

An index made up for a rehearsal keeps the height of every block, or, as a probe,
notes what the index of heights says about each block it is asked for.  It fails
where the script says so.
-/

namespace ChainIndex

namespace Rehearsal

structure Part where
  name : String
  ordered : Bool
  probes : Bool
  /-- Faults by direction and block. -/
  failing : List (Direction × BlockHash × Fault)

namespace Part

def key (part : Part) (block : Block) : Bytes :=
  Bytes.ofText part.name ++ Bytes.ofText "/" ++ Bytes.ofText block.hash

def sign : Direction → String
  | .apply => "+"
  | .undo => "-"

def probe (part : Part) (block : Block) (direction : Direction) (view : View) :
    Except Fault (List Edit) := do
  let height ← Heights.heightOf view block.hash
  let seen := match height with
    | some height => toString height
    | none => "none"
  return [.put (part.key block) (Bytes.ofText (sign direction ++ seen))]

def edits (part : Part) (block : Block) (direction : Direction) (view : View) :
    Except Halt (List Edit) :=
  match part.failing.find? fun entry => entry.1 = direction ∧ entry.2.1 = block.hash with
  | some (_, _, cause) => .error (.fault cause)
  | none =>
      if part.probes then ofFault (part.probe block direction view)
      else
        match direction with
        | .apply => .ok [.put (part.key block) (Numeral.decimal block.height.toNat)]
        | .undo => .ok [.erase (part.key block)]

def index (part : Part) : Index :=
  ⟨part.name, part.ordered, part.edits⟩

end Part

end Rehearsal

end ChainIndex
