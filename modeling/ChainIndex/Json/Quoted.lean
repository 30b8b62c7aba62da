import ChainIndex.Numeral

/-!
# Quoted text

What stands between two quotation marks is a lexeme: bytes in which a backslash
begins an escape.  This module writes text as a lexeme and says which text, if
any, a lexeme spells.  A lexeme spells nothing when its bytes are not UTF-8 or
when an escape names half of a surrogate pair; such a lexeme may still stand
where nobody reads it.
-/

namespace ChainIndex

namespace Json

namespace Quoted

/-!
# Writing
-/

/-- Quotation marks, backslashes and control bytes are escaped, and nothing else. -/
def escapeByte (b : UInt8) : Bytes :=
  if b = 34 then [92, 34]
  else if b = 92 then [92, 92]
  else if b = 8 then [92, 98]
  else if b = 9 then [92, 116]
  else if b = 10 then [92, 110]
  else if b = 12 then [92, 102]
  else if b = 13 then [92, 114]
  else if b < 32 then [92, 117] ++ Numeral.hex 4 b.toNat
  else [b]

def escape (bytes : Bytes) : Bytes :=
  bytes.flatMap escapeByte

def ofText (text : String) : Bytes :=
  escape (Bytes.ofText text)

/-!
# Reading

A lexeme is first cut into pieces, single bytes and 16-bit units, and the pieces
are then joined into bytes.  Only at the second step do surrogates matter.
-/

inductive Piece where
  | byte (b : UInt8)
  | codeUnit (u : Nat)
deriving DecidableEq

def unescape? (b : UInt8) : Option UInt8 :=
  if b = 34 then some 34
  else if b = 92 then some 92
  else if b = 47 then some 47
  else if b = 98 then some 8
  else if b = 102 then some 12
  else if b = 110 then some 10
  else if b = 114 then some 13
  else if b = 116 then some 9
  else none

def codeUnit? (a b c d : UInt8) : Option Nat := do
  let a ← Numeral.hexDigit? a
  let b ← Numeral.hexDigit? b
  let c ← Numeral.hexDigit? c
  let d ← Numeral.hexDigit? d
  return ((a * 16 + b) * 16 + c) * 16 + d

def pieces? : Bytes → Option (List Piece)
  | [] => some []
  | b :: rest =>
      if b = 92 then
        match rest with
        | [] => none
        | e :: rest =>
            if e = 117 then
              match rest with
              | u :: v :: w :: x :: rest =>
                  match codeUnit? u v w x, pieces? rest with
                  | some n, some more => some (.codeUnit n :: more)
                  | _, _ => none
              | _ => none
            else
              match unescape? e, pieces? rest with
              | some c, some more => some (.byte c :: more)
              | _, _ => none
      else
        match pieces? rest with
        | some more => some (.byte b :: more)
        | none => none

def isHighSurrogate (u : Nat) : Bool :=
  0xD800 ≤ u && u < 0xDC00

def isLowSurrogate (u : Nat) : Bool :=
  0xDC00 ≤ u && u < 0xE000

def encode (scalar : Nat) : Bytes :=
  String.utf8EncodeChar (Char.ofNat scalar)

def paired (high low : Nat) : Nat :=
  0x10000 + (high - 0xD800) * 0x400 + (low - 0xDC00)

def join? : List Piece → Option Bytes
  | [] => some []
  | .byte b :: rest => (join? rest).map (b :: ·)
  | .codeUnit u :: rest =>
      if isHighSurrogate u then
        match rest with
        | .codeUnit v :: rest =>
            if isLowSurrogate v then (join? rest).map (encode (paired u v) ++ ·) else none
        | _ => none
      else if isLowSurrogate u then none
      else (join? rest).map (encode u ++ ·)

def content? (lexeme : Bytes) : Option Bytes :=
  (pieces? lexeme).bind join?

def spell? (lexeme : Bytes) : Option String :=
  (content? lexeme).bind Bytes.toText?

/-!
# Writing and reading agree
-/

theorem codeUnit?_hex (b : UInt8) (h : b < 32) :
    codeUnit? 48 48 (Numeral.hexDigit (b.toNat / 16 % 16)) (Numeral.hexDigit (b.toNat % 16)) =
      some b.toNat := by
  have key : ∀ n : Fin 32,
      codeUnit? 48 48 (Numeral.hexDigit (n.val / 16 % 16)) (Numeral.hexDigit (n.val % 16)) =
        some n.val := by decide
  exact key ⟨b.toNat, by simpa [UInt8.lt_iff_toNat_lt] using h⟩

theorem encode_of_lt (b : UInt8) (h : b < 128) : encode b.toNat = [b] := by
  have key : ∀ n : Fin 128, encode n.val = [n.val.toUInt8] := by decide
  have := key ⟨b.toNat, by simpa [UInt8.lt_iff_toNat_lt] using h⟩
  simpa using this

theorem pieces?_plain {b : UInt8} (h : b ≠ 92) (rest : Bytes) :
    pieces? (b :: rest) = (pieces? rest).map (.byte b :: ·) := by
  rw [pieces?.eq_def]
  simp only [h, if_false]
  cases pieces? rest <;> rfl

theorem pieces?_escaped {e c : UInt8} (h : e ≠ 117) (hc : unescape? e = some c) (rest : Bytes) :
    pieces? (92 :: e :: rest) = (pieces? rest).map (.byte c :: ·) := by
  rw [pieces?.eq_def]
  simp only [h, hc, if_false, if_true]
  cases pieces? rest <;> rfl

theorem pieces?_codeUnit {u v w x : UInt8} {n : Nat} (h : codeUnit? u v w x = some n)
    (rest : Bytes) :
    pieces? (92 :: 117 :: u :: v :: w :: x :: rest) = (pieces? rest).map (.codeUnit n :: ·) := by
  rw [pieces?.eq_def]
  simp only [h, if_true]
  cases pieces? rest <;> rfl

theorem join?_codeUnit {u : Nat} (high : isHighSurrogate u = false)
    (low : isLowSurrogate u = false) (rest : List Piece) :
    join? (.codeUnit u :: rest) = (join? rest).map (encode u ++ ·) := by
  rw [join?.eq_def]
  simp [high, low]

theorem content?_of_pieces? {lexeme rest : Bytes} {p : Piece} {b : UInt8}
    (h : pieces? lexeme = (pieces? rest).map (p :: ·))
    (hp : ∀ more, join? (p :: more) = (join? more).map (b :: ·)) :
    content? lexeme = (content? rest).map (b :: ·) := by
  rw [content?, content?, h]
  cases pieces? rest with
  | none => rfl
  | some more => exact hp more

theorem content?_escapeByte_append (b : UInt8) (rest : Bytes) :
    content? (escapeByte b ++ rest) = (content? rest).map (b :: ·) := by
  by_cases named : b = 34 ∨ b = 92 ∨ b = 8 ∨ b = 9 ∨ b = 10 ∨ b = 12 ∨ b = 13
  · rcases named with rfl | rfl | rfl | rfl | rfl | rfl | rfl <;>
      exact content?_of_pieces? (pieces?_escaped (by decide) (by decide) rest) fun _ => rfl
  · simp only [not_or] at named
    obtain ⟨h1, h2, h3, h4, h5, h6, h7⟩ := named
    by_cases control : b < 32
    · have bound : b.toNat < 32 := by simpa [UInt8.lt_iff_toNat_lt] using control
      have single := encode_of_lt b (by simp [UInt8.lt_iff_toNat_lt]; omega)
      have zeros : Numeral.hex 4 b.toNat =
          [48, 48, Numeral.hexDigit (b.toNat / 16 % 16), Numeral.hexDigit (b.toNat % 16)] := by
        have tiny : b.toNat / 16 / 16 = 0 := by omega
        simp [Numeral.hex, tiny, Numeral.hexDigit]
      have written : escapeByte b ++ rest =
          92 :: 117 :: 48 :: 48 :: Numeral.hexDigit (b.toNat / 16 % 16) ::
            Numeral.hexDigit (b.toNat % 16) :: rest := by
        simp [escapeByte, zeros, h1, h2, h3, h4, h5, h6, h7, control]
      rw [written]
      refine content?_of_pieces? (pieces?_codeUnit (codeUnit?_hex b control) rest) fun more => ?_
      rw [join?_codeUnit (by simp [isHighSurrogate]; omega) (by simp [isLowSurrogate]; omega),
        single]
      rfl
    · have written : escapeByte b ++ rest = b :: rest := by
        simp [escapeByte, h1, h2, h3, h4, h5, h6, h7, control]
      rw [written]
      exact content?_of_pieces? (pieces?_plain h2 rest) fun _ => rfl

theorem content?_escape (bytes : Bytes) : content? (escape bytes) = some bytes := by
  induction bytes with
  | nil => rfl
  | cons b rest ih =>
      rw [escape, List.flatMap_cons, content?_escapeByte_append]
      rw [escape] at ih
      rw [ih]
      rfl

theorem spell?_ofText (text : String) : spell? (ofText text) = some text := by
  rw [spell?, ofText, content?_escape]
  exact Bytes.toText?_ofText text

end Quoted

end Json

end ChainIndex
