import ChainIndex.Proofs.Numerals
import ChainIndex.Records

/-!
# Pointers are read back as they were written

A pointer is written as an object with a text and a number.  The reader is pushed
through the written bytes one lexeme at a time, over whatever containers are still
open, and ends up with the same document.
-/

namespace ChainIndex

namespace Json

namespace Reader

/-!
# Lexemes between quotation marks
-/

/-- A mode in which the bytes of a lexeme are collected one by one. -/
def Collects (mode : InText → Bytes → Mode) (stack : List Open) : Prop :=
  ∀ place lexeme b, ¬ (place = .plain ∧ b = 34) →
    step ⟨mode place lexeme, stack⟩ b =
      (place.next b).map fun next => ⟨mode next (b :: lexeme), stack⟩

theorem collects_text (stack : List Open) : Collects .text stack := by
  intro place lexeme b h
  rw [step, if_neg h]

theorem collects_keyText (members : List (Bytes × Json)) (stack : List Open) :
    Collects (.keyText members) stack := by
  intro place lexeme b h
  rw [step, if_neg h]

section

variable {mode : InText → Bytes → Mode} {stack : List Open}

theorem Collects.feed_cons (h : Collects mode stack) {place : InText} (next : InText) {b : UInt8}
    (hopen : ¬ (place = .plain ∧ b = 34)) (hnext : place.next b = some next)
    (lexeme rest : Bytes) :
    feed ⟨mode place lexeme, stack⟩ (b :: rest) = feed ⟨mode next (b :: lexeme), stack⟩ rest := by
  rw [Reader.feed_cons, h place lexeme b hopen, hnext]
  rfl

theorem isSome_hexDigit? (n : Nat) : (Numeral.hexDigit? (Numeral.hexDigit (n % 16))).isSome := by
  have key : ∀ k : Fin 16, (Numeral.hexDigit? (Numeral.hexDigit k.val)).isSome := by decide
  exact key ⟨n % 16, Nat.mod_lt _ (by decide)⟩

theorem Collects.feed_hex (h : Collects mode stack) (n : Nat) (lexeme rest : Bytes) :
    feed ⟨mode (.codeUnit 4) lexeme, stack⟩ (Numeral.hex 4 n ++ rest) =
      feed ⟨mode .plain ((Numeral.hex 4 n).reverse ++ lexeme), stack⟩ rest := by
  have hdigits : Numeral.hex 4 n = [Numeral.hexDigit (n / 16 / 16 / 16 % 16),
      Numeral.hexDigit (n / 16 / 16 % 16), Numeral.hexDigit (n / 16 % 16),
      Numeral.hexDigit (n % 16)] := rfl
  have hnext : ∀ m missing, (InText.codeUnit missing).next (Numeral.hexDigit (m % 16)) =
      if missing ≤ 1 then some .plain else some (.codeUnit (missing - 1)) := by
    intro m missing
    rw [InText.next, if_pos (isSome_hexDigit? m)]
  rw [hdigits]
  simp only [List.cons_append, List.nil_append, List.reverse_cons, List.reverse_nil]
  rw [h.feed_cons (.codeUnit 3) (by simp) (hnext _ 4),
    h.feed_cons (.codeUnit 2) (by simp) (hnext _ 3),
    h.feed_cons (.codeUnit 1) (by simp) (hnext _ 2),
    h.feed_cons .plain (by simp) (hnext _ 1)]

theorem Collects.feed_escapeByte (h : Collects mode stack) (b : UInt8) (lexeme rest : Bytes) :
    feed ⟨mode .plain lexeme, stack⟩ (Quoted.escapeByte b ++ rest) =
      feed ⟨mode .plain ((Quoted.escapeByte b).reverse ++ lexeme), stack⟩ rest := by
  have hbackslash : InText.plain.next 92 = some .escape := rfl
  by_cases hnamed : b = 34 ∨ b = 92 ∨ b = 8 ∨ b = 9 ∨ b = 10 ∨ b = 12 ∨ b = 13
  · rcases hnamed with rfl | rfl | rfl | rfl | rfl | rfl | rfl <;>
      exact (h.feed_cons _ (by decide) hbackslash _ _).trans
        (h.feed_cons _ (by decide) (by decide) _ _)
  · simp only [not_or] at hnamed
    rcases hnamed with ⟨h1, h2, h3, h4, h5, h6, h7⟩
    by_cases hcontrol : b < 32
    · have hwritten : Quoted.escapeByte b = 92 :: 117 :: Numeral.hex 4 b.toNat := by
        simp [Quoted.escapeByte, h1, h2, h3, h4, h5, h6, h7, hcontrol]
      rw [hwritten, List.cons_append, List.cons_append,
        h.feed_cons _ (by decide) hbackslash,
        h.feed_cons (.codeUnit 4) (by decide) rfl, h.feed_hex]
      simp
    · have hwritten : Quoted.escapeByte b = [b] := by
        simp [Quoted.escapeByte, h1, h2, h3, h4, h5, h6, h7, hcontrol]
      have hplain : InText.plain.next b = some .plain := by
        rw [InText.next, if_neg h2, if_neg hcontrol]
      rw [hwritten, List.singleton_append, h.feed_cons _ (by simp [h1]) hplain]
      rfl

theorem Collects.feed_escape (h : Collects mode stack) (bytes lexeme rest : Bytes) :
    feed ⟨mode .plain lexeme, stack⟩ (Quoted.escape bytes ++ rest) =
      feed ⟨mode .plain ((Quoted.escape bytes).reverse ++ lexeme), stack⟩ rest := by
  induction bytes generalizing lexeme with
  | nil => rfl
  | cons b more ih =>
      have hcons : Quoted.escape (b :: more) = Quoted.escapeByte b ++ Quoted.escape more := rfl
      rw [hcons, List.append_assoc, h.feed_escapeByte, ih, List.reverse_append,
        List.append_assoc]

end

theorem feed_text (text : String) (stack : List Open) (rest : Bytes) :
    feed ⟨.value, stack⟩ (quote (Quoted.ofText text) ++ rest) =
      feed ⟨.complete (.text (Quoted.ofText text)), stack⟩ rest := by
  have hquote : quote (Quoted.ofText text) ++ rest =
      34 :: (Quoted.escape (Bytes.ofText text) ++ 34 :: rest) := by
    simp [quote, Quoted.ofText]
  have hopen : step ⟨.value, stack⟩ 34 = some ⟨.text .plain [], stack⟩ := rfl
  rw [hquote, feed_cons, hopen, Option.bind_some, (collects_text stack).feed_escape, feed_cons,
    List.append_nil]
  simp [step, Quoted.ofText]

theorem feed_key (name : String) (members : List (Bytes × Json)) (first : Bool)
    (stack : List Open) (rest : Bytes) :
    feed ⟨.key members first, stack⟩ (quote (Quoted.ofText name) ++ 58 :: rest) =
      feed ⟨.value, .object members (Quoted.ofText name) :: stack⟩ rest := by
  have hquote : quote (Quoted.ofText name) ++ 58 :: rest =
      34 :: (Quoted.escape (Bytes.ofText name) ++ 34 :: 58 :: rest) := by
    simp [quote, Quoted.ofText]
  have hopen : step ⟨.key members first, stack⟩ 34 =
      some ⟨.keyText members .plain [], stack⟩ := rfl
  rw [hquote, feed_cons, hopen, Option.bind_some, (collects_keyText members stack).feed_escape,
    feed_cons, List.append_nil]
  simp [step, Quoted.ofText, feed_cons, isBlank]

/-!
# Numbers
-/

def numberPlace (n : Nat) : InNumber :=
  if n = 0 then .zero else .whole

theorem isDigit_decimalDigit {d : Nat} (h : d < 10) : isDigit (Numeral.decimalDigit d) = true := by
  have hbounds := Numeral.decimalDigit_bounds h
  simp [isDigit, hbounds.1, hbounds.2]

theorem feed_number (n : Nat) (stack : List Open) (rest : Bytes) :
    feed ⟨.value, stack⟩ (Numeral.decimal n ++ rest) =
      feed ⟨.number (numberPlace n) (Numeral.decimal n).reverse, stack⟩ rest := by
  induction n using Nat.strongRecOn generalizing rest with
  | _ n ih =>
      by_cases hsmall : n < 10
      · have key : ∀ k : Fin 10, ∀ stack : List Open,
            step ⟨.value, stack⟩ (Numeral.decimalDigit k.val) =
              some ⟨.number (numberPlace k.val) [Numeral.decimalDigit k.val], stack⟩ := by
          intro k stack
          match k with
          | 0 | 1 | 2 | 3 | 4 | 5 | 6 | 7 | 8 | 9 => rfl
        rw [Numeral.decimal_of_lt hsmall, List.singleton_append, feed_cons,
          key ⟨n, hsmall⟩ stack]
        rfl
      · have hlarge : 10 ≤ n := Nat.le_of_not_lt hsmall
        have hdigit : isDigit (Numeral.decimalDigit (n % 10)) = true :=
          isDigit_decimalDigit (Nat.mod_lt _ (by decide))
        have hplaces : numberPlace (n / 10) = .whole ∧ numberPlace n = .whole := by
          constructor <;> exact if_neg (by omega)
        rw [Numeral.decimal_of_le hlarge, List.append_assoc, ih (n / 10) (by omega), hplaces.1,
          hplaces.2, List.singleton_append, feed_cons, step, InNumber.next, if_pos hdigit,
          List.reverse_append]
        rfl

end Reader

theorem word?_ofWord (n : UInt64) : (ofWord n).word? = some n := by
  rcases Numeral.exists_decimal_eq n.toNat with ⟨d, rest, hd, heq⟩
  have hsign : Numeral.decimalDigit d ≠ 45 := by
    have key : ∀ k : Fin 10, Numeral.decimalDigit k.val ≠ 45 := by decide
    exact key ⟨d, hd⟩
  have hminus : Numeral.decimal n.toNat ≠ [45, 48] := by
    rw [heq]
    intro h
    exact hsign (List.head_eq_of_cons_eq h)
  rw [word?, natural?, ofWord, ofNat, integer?, if_neg hminus, Numeral.integer?_decimal]
  exact Numeral.word?_toNat n

end Json

namespace Pointer

open Json

theorem json_read?_write (pointer : Pointer) : Json.read? pointer.write = some pointer.toJson := by
  have hwrite : pointer.write = 123 :: (quote (Quoted.ofText "hash") ++ 58 ::
      (quote (Quoted.ofText pointer.hash) ++ 44 :: (quote (Quoted.ofText "height") ++ 58 ::
        (Numeral.decimal pointer.height.toNat ++ [125])))) := by
    simp [write, toJson, ofMembers, Json.write, writeMembers, between, ofText, ofWord, ofNat,
      List.intercalate, List.intersperse]
  have hopen : ∀ stack, Reader.step ⟨.value, stack⟩ 123 = some ⟨.key [] true, stack⟩ :=
    fun _ => rfl
  have hcomma : ∀ value members key stack,
      Reader.step ⟨.complete value, .object members key :: stack⟩ 44 =
        some ⟨.key ((key, value) :: members) false, stack⟩ := fun _ _ _ _ => rfl
  have hclose : ∀ lexeme members key, Reader.step
      ⟨.number (Reader.numberPlace pointer.height.toNat) lexeme, [.object members key]⟩ 125 =
        some ⟨.complete (.object ((key, .number lexeme.reverse) :: members).reverse), []⟩ := by
    intro lexeme members key
    unfold Reader.numberPlace
    split <;> rfl
  rw [Json.read?, hwrite, Reader.feed_cons, hopen, Option.bind_some, Reader.feed_key,
    Reader.feed_text, Reader.feed_cons, hcomma, Option.bind_some, Reader.feed_key,
    Reader.feed_number, Reader.feed_cons, hclose, Option.bind_some, Reader.feed_nil,
    Option.bind_some, Reader.result?, List.reverse_reverse]
  rfl

theorem ofJson?_toJson (pointer : Pointer) : ofJson? pointer.toJson = some pointer := by
  have hhash := Quoted.spell?_ofText "hash"
  have hheight := Quoted.spell?_ofText "height"
  have hslots : pointer.toJson.slots? ["hash", "height"] =
      some [some (ofText pointer.hash), some (ofWord pointer.height)] := by
    simp [toJson, ofMembers, slots?, distinctNames, member?, hhash, hheight]
  have htext : (ofText pointer.hash).text? = some pointer.hash :=
    Quoted.spell?_ofText pointer.hash
  rw [ofJson?, hslots]
  simp [required, htext, word?_ofWord]

theorem read?_write (pointer : Pointer) : read? pointer.write = some pointer := by
  rw [read?, json_read?_write, Option.bind_some, ofJson?_toJson]

end Pointer

end ChainIndex
