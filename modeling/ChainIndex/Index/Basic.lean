import ChainIndex.Fault
import ChainIndex.Numeral
import ChainIndex.Table

/-!
# Indexes

An index turns a block into edits of the table: those that enter the block when
it is applied, and those that take it out again when it is undone.  It may read
the table as committed so far, but it writes only by returning edits, so that
the edits of all indexes and the move of the tip can land in one batch.

Reading may fail.  An index is therefore given a view, which is the table
together with the reads that fail now.
-/

namespace ChainIndex

/-- Which reads fail, by the key that is read or by the start of the range. -/
structure Outages where
  onGet : Bytes → Option Fault
  onScan : Bytes → Option Fault

def Outages.none : Outages :=
  ⟨fun _ => .none, fun _ => .none⟩

structure View where
  table : Table
  outages : Outages

namespace View

def clear (table : Table) : View :=
  ⟨table, .none⟩

def get? (view : View) (key : Bytes) : Except Fault (Option Bytes) :=
  match view.outages.onGet key with
  | some fault => .error fault
  | none => .ok (view.table.get? key)

def scan (view : View) (start : Bytes) (stop : Option Bytes) : Except Fault Entries :=
  match view.outages.onScan start with
  | some fault => .error fault
  | none => .ok (view.table.scan start stop)

def scanStem (view : View) (stem : Bytes) : Except Fault Entries :=
  view.scan stem stem.ceiling

@[simp] theorem get?_clear (table : Table) (key : Bytes) :
    (clear table).get? key = .ok (table.get? key) := rfl

end View

structure Index where
  name : String
  /-- Whether a block's entries depend on the blocks before it. -/
  ordered : Bool
  edits : Block → Direction → View → Except Halt (List Edit)

def Index.track (index : Index) : Track :=
  if index.ordered then .serial else .concurrent

def Index.editsFor (index : Index) (block : Block) (direction : Direction) (view : View) :
    Except Halt (List Edit) :=
  match index.edits block direction view with
  | .ok edits => .ok edits
  | .error halt => .error (halt.mapFault (Fault.within index.name))

/-!
# Catalogues

The indexes in use, in the order in which they were registered.
-/

abbrev Catalogue := List Index

namespace Catalogue

def on (catalogue : Catalogue) (track : Track) : List Index :=
  catalogue.filter fun index => index.track = track

/-- The edits of all the given indexes, one after the other.  The first index
that fails fails the block. -/
def gather (block : Block) (direction : Direction) (view : View) :
    List Index → Except Halt (List Edit)
  | [] => .ok []
  | index :: rest =>
      match index.editsFor block direction view with
      | .error halt => .error halt
      | .ok edits =>
          match gather block direction view rest with
          | .error halt => .error halt
          | .ok more => .ok (edits ++ more)

def edits (catalogue : Catalogue) (track : Track) (block : Block) (direction : Direction)
    (view : View) : Except Halt (List Edit) :=
  gather block direction view (catalogue.on track)

end Catalogue

/-!
# Values in the table
-/

def storedInteger (name : String) (bytes : Bytes) : Except Fault Int64 :=
  match (Numeral.integer? bytes).bind Numeral.signedWord? with
  | some value => .ok value
  | none => .error (.service name "corrupt integer value")

def storedText (name : String) (bytes : Bytes) : Except Fault String :=
  match bytes.toText? with
  | some text => .ok text
  | none => .error (.service name "corrupt string value")

end ChainIndex
