import ChainIndex.Index.Basic
import ChainIndex.Records

/-!
# The frontier

Two pointers say how far the indexes of each track have come.  They are kept in
the table under keys of their own, in the same batches as the entries they vouch
for, so that a tip can never be ahead of its entries or behind them.
-/

namespace ChainIndex

structure Frontier where
  concurrent : Pointer
  serial : Pointer
deriving DecidableEq, Inhabited

namespace Frontier

def level (pointer : Pointer) : Frontier :=
  ⟨pointer, pointer⟩

def isLevel (frontier : Frontier) : Bool :=
  frontier.concurrent = frontier.serial

def tip (frontier : Frontier) : Track → Pointer
  | .concurrent => frontier.concurrent
  | .serial => frontier.serial

def move (frontier : Frontier) (track : Track) (pointer : Pointer) : Frontier :=
  match track with
  | .concurrent => { frontier with concurrent := pointer }
  | .serial => { frontier with serial := pointer }

@[simp] theorem tip_level (pointer : Pointer) (track : Track) :
    (level pointer).tip track = pointer := by
  cases track <;> rfl

@[simp] theorem tip_move_same (frontier : Frontier) (track : Track) (pointer : Pointer) :
    (frontier.move track pointer).tip track = pointer := by
  cases track <;> rfl

theorem tip_move_other (frontier : Frontier) {track other : Track} (h : other ≠ track)
    (pointer : Pointer) : (frontier.move track pointer).tip other = frontier.tip other := by
  cases track <;> cases other <;> first | rfl | exact absurd rfl h

/-!
# The frontier in the table
-/

def key : Track → Bytes
  | .concurrent => Bytes.ofText "meta/tip/concurrent"
  | .serial => Bytes.ofText "meta/tip/serial"

def edit (track : Track) (pointer : Pointer) : Edit :=
  .put (key track) pointer.write

def recorded (view : View) (track : Track) : Except Fault (Option Pointer) := do
  match ← view.get? (key track) with
  | some bytes =>
      match Pointer.read? bytes with
      | some pointer => return some pointer
      | none => throw (.storage "codec: a stored tip is not a pointer")
  | none => return none

/-- The recorded frontier; a track without a record starts at genesis. -/
def load (view : View) (genesis : Pointer) : Except Fault Frontier := do
  let concurrent ← recorded view .concurrent
  let serial ← recorded view .serial
  return ⟨concurrent.getD genesis, serial.getD genesis⟩

end Frontier

end ChainIndex
