/-!
# Byte strings

Keys and values of the table are finite byte strings, compared in
lexicographic order.  This module fixes that type, its passage to and from
Unicode text, and the least byte string above every key with a given stem.

The order is the one of lists over `UInt8`: a proper initial part comes before
its extensions, and otherwise the first differing byte decides.
-/

namespace ChainIndex

abbrev Bytes := List UInt8

namespace Bytes

/-!
# Text

Text is stored in UTF-8.  Reading bytes back as text fails exactly on byte
strings that are not well-formed UTF-8.
-/

def ofText (text : String) : Bytes :=
  text.toUTF8.data.toList

def toText? (bytes : Bytes) : Option String :=
  String.fromUTF8? ⟨bytes.toArray⟩

theorem toText?_ofText (text : String) : toText? (ofText text) = some text := by
  have h : (⟨(ofText text).toArray⟩ : ByteArray) = text.toByteArray := by
    simp [ofText]
  rw [toText?, h, String.fromUTF8?, dif_pos text.isValidUTF8]
  rfl

theorem ofText_injective {s t : String} (h : ofText s = ofText t) : s = t := by
  have hs := toText?_ofText s
  rw [h, toText?_ofText] at hs
  exact (Option.some.inj hs).symm

/-!
# Stems

A stem selects the keys that start with it.  They form an interval, whose
upper end is the stem with its last byte below 255 raised by one and all that
follows it cut off.  A stem of bytes 255 alone has no byte string above all its
extensions.
-/

/-- The least byte string greater than every extension of the stem, if any. -/
def ceiling : Bytes → Option Bytes
  | [] => none
  | b :: rest =>
      match ceiling rest with
      | some above => some (b :: above)
      | none => if b < 255 then some [b + 1] else none

end Bytes

end ChainIndex
