import ChainIndex.Bytes

/-!
# Lossy text

Bytes shown to a reader as text whatever they are.  Each longest run that begins
a UTF-8 sequence without completing it, or else the single byte that begins none,
is shown as the replacement character.
-/

namespace ChainIndex

namespace Lossy

def inRange (low high : UInt8) (b : UInt8) : Bool :=
  low ≤ b && b ≤ high

def following? (lead : UInt8) : Option (List (UInt8 × UInt8)) :=
  let any := (0x80, 0xBF)
  if lead < 0x80 then some []
  else if inRange 0xC2 0xDF lead then some [any]
  else if lead = 0xE0 then some [(0xA0, 0xBF), any]
  else if lead = 0xED then some [(0x80, 0x9F), any]
  else if inRange 0xE1 0xEF lead then some [any, any]
  else if lead = 0xF0 then some [(0x90, 0xBF), any, any]
  else if inRange 0xF1 0xF3 lead then some [any, any, any]
  else if lead = 0xF4 then some [(0x80, 0x8F), any, any]
  else none

def matching : List (UInt8 × UInt8) → Bytes → Nat
  | (low, high) :: ranges, b :: rest =>
      if inRange low high b then matching ranges rest + 1 else 0
  | _, _ => 0

def replacement : Bytes :=
  [0xEF, 0xBF, 0xBD]

/-- Cuts the bytes into characters and replaces what is none, in at most the
given number of cuts. -/
def mend : (cuts : Nat) → Bytes → Bytes
  | 0, _ => []
  | _, [] => []
  | cuts + 1, lead :: rest =>
      match following? lead with
      | none => replacement ++ mend cuts rest
      | some ranges =>
          let found := matching ranges rest
          let shown := if found = ranges.length then lead :: rest.take found else replacement
          shown ++ mend cuts (rest.drop found)

end Lossy

def Bytes.toTextLossy (bytes : Bytes) : String :=
  (Bytes.toText? (Lossy.mend bytes.length bytes)).getD ""

end ChainIndex
