import ChainIndex.Bytes

/-!
# Numerals

Integers are stored as text: in decimal where they are values, and in
hexadecimal of a fixed width where they are part of a key.  A fixed width makes
the byte order of the numerals the numeric order of the numbers.
-/

namespace ChainIndex

namespace Numeral

/-!
# Writing
-/

def decimal (n : Nat) : Bytes :=
  (Nat.toDigits 10 n).map fun c => c.toNat.toUInt8

def signed (z : Int) : Bytes :=
  if z < 0 then 45 :: decimal z.natAbs else decimal z.natAbs

def hexDigit (d : Nat) : UInt8 :=
  if d < 10 then 48 + d.toUInt8 else 87 + d.toUInt8

def hex : (width n : Nat) → Bytes
  | 0, _ => []
  | width + 1, n => hex width (n / 16) ++ [hexDigit (n % 16)]

@[simp] theorem length_hex (width n : Nat) : (hex width n).length = width := by
  induction width generalizing n with
  | zero => rfl
  | succ width ih => simp [hex, ih]

/-!
# Reading
-/

def digit? (b : UInt8) : Option Nat :=
  if 48 ≤ b ∧ b ≤ 57 then some (b.toNat - 48) else none

def hexDigit? (b : UInt8) : Option Nat :=
  if 48 ≤ b ∧ b ≤ 57 then some (b.toNat - 48)
  else if 97 ≤ b ∧ b ≤ 102 then some (b.toNat - 87)
  else if 65 ≤ b ∧ b ≤ 70 then some (b.toNat - 55)
  else none

def extend (n : Nat) : Bytes → Option Nat
  | [] => some n
  | b :: rest =>
      match digit? b with
      | some d => extend (10 * n + d) rest
      | none => none

def natural? : Bytes → Option Nat
  | [] => none
  | b :: rest => extend 0 (b :: rest)

/-- Reads a decimal integer with at most one sign, `+` or `-`, in front. -/
def integer? : Bytes → Option Int
  | [] => none
  | b :: rest =>
      if b = 45 then (natural? rest).map fun n => -(n : Int)
      else if b = 43 then (natural? rest).map fun n => (n : Int)
      else (natural? (b :: rest)).map fun n => (n : Int)

/-!
# Machine words
-/

def word? (n : Nat) : Option UInt64 :=
  if n < UInt64.size then some (UInt64.ofNat n) else none

def signedWord? (z : Int) : Option Int64 :=
  if Int64.minValue.toInt ≤ z ∧ z ≤ Int64.maxValue.toInt then some (Int64.ofInt z) else none

end Numeral

end ChainIndex
