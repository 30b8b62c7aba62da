import ChainIndex.Numeral
import Mathlib.Algebra.Group.Nat.Defs

/-!
# Numerals are read back as they were written

Decimal digits are added at the end of a numeral one by one, when it is written as
well as when it is read, and both directions are related digit by digit.
Hexadecimal numerals are never read, but they are keys, and distinct numbers have
distinct ones.
-/

namespace ChainIndex

namespace Numeral

/-!
# Decimal numerals
-/

def decimalDigit (d : Nat) : UInt8 :=
  (48 + d).toUInt8

theorem decimal_of_lt {n : Nat} (h : n < 10) : decimal n = [decimalDigit n] := by
  rw [decimal, Nat.toDigits_of_lt_base h, decimalDigit]
  simp [Nat.toNat_digitChar_of_lt_ten h]

theorem decimal_of_le {n : Nat} (h : 10 ≤ n) :
    decimal n = decimal (n / 10) ++ [decimalDigit (n % 10)] := by
  have hdigit : n % 10 < 10 := Nat.mod_lt _ (by decide)
  rw [decimal, Nat.toDigits_of_base_le (by decide) h, decimal, decimalDigit]
  simp [Nat.toNat_digitChar_of_lt_ten hdigit]

theorem digit?_decimalDigit {d : Nat} (h : d < 10) : digit? (decimalDigit d) = some d := by
  have key : ∀ k : Fin 10, digit? (decimalDigit k.val) = some k.val := by decide
  exact key ⟨d, h⟩

theorem decimalDigit_bounds {d : Nat} (h : d < 10) :
    48 ≤ decimalDigit d ∧ decimalDigit d ≤ 57 := by
  have key : ∀ k : Fin 10, 48 ≤ decimalDigit k.val ∧ decimalDigit k.val ≤ 57 := by decide
  exact key ⟨d, h⟩

theorem extend_decimal_append (n : Nat) (rest : Bytes) :
    extend 0 (decimal n ++ rest) = extend n rest := by
  induction n using Nat.strongRecOn generalizing rest with
  | _ n ih =>
      by_cases hsmall : n < 10
      · rw [decimal_of_lt hsmall, List.singleton_append, extend, digit?_decimalDigit hsmall]
        simp
      · have hlarge : 10 ≤ n := Nat.le_of_not_lt hsmall
        have hdigit : n % 10 < 10 := Nat.mod_lt _ (by decide)
        rw [decimal_of_le hlarge, List.append_assoc, ih (n / 10) (by omega),
          List.singleton_append, extend, digit?_decimalDigit hdigit]
        have hvalue : 10 * (n / 10) + n % 10 = n := Nat.div_add_mod n 10
        simp only [hvalue]

theorem decimal_ne_nil (n : Nat) : decimal n ≠ [] := by
  simp [decimal, Nat.toDigits_ne_nil]

theorem natural?_decimal (n : Nat) : natural? (decimal n) = some n := by
  have hread := extend_decimal_append n []
  rw [List.append_nil] at hread
  cases hdigits : decimal n with
  | nil => exact absurd hdigits (decimal_ne_nil n)
  | cons b rest =>
      rw [natural?, ← hdigits, hread]
      rfl

theorem exists_decimal_eq (n : Nat) :
    ∃ d rest, d < 10 ∧ decimal n = decimalDigit d :: rest := by
  induction n using Nat.strongRecOn with
  | _ n ih =>
      by_cases hsmall : n < 10
      · exact ⟨n, [], hsmall, decimal_of_lt hsmall⟩
      · have hlarge : 10 ≤ n := Nat.le_of_not_lt hsmall
        rcases ih (n / 10) (by omega) with ⟨d, rest, hd, heq⟩
        exact ⟨d, rest ++ [decimalDigit (n % 10)], hd, by
          rw [decimal_of_le hlarge, heq, List.cons_append]⟩

theorem integer?_decimal (n : Nat) : integer? (decimal n) = some (n : Int) := by
  rcases exists_decimal_eq n with ⟨d, rest, hd, heq⟩
  have hnatural := natural?_decimal n
  have hsigns : decimalDigit d ≠ 45 ∧ decimalDigit d ≠ 43 := by
    have key : ∀ k : Fin 10, decimalDigit k.val ≠ 45 ∧ decimalDigit k.val ≠ 43 := by decide
    exact key ⟨d, hd⟩
  rw [heq] at hnatural ⊢
  rw [integer?, if_neg hsigns.1, if_neg hsigns.2, hnatural]
  rfl

theorem integer?_signed (z : Int) : integer? (signed z) = some z := by
  unfold signed
  by_cases hneg : z < 0
  · have hvalue : -(z.natAbs : Int) = z := by omega
    rw [if_pos hneg, integer?, if_pos rfl, natural?_decimal]
    exact congrArg some hvalue
  · have hvalue : (z.natAbs : Int) = z := by omega
    rw [if_neg hneg, integer?_decimal, hvalue]

theorem word?_toNat (n : UInt64) : word? n.toNat = some n := by
  rw [word?, if_pos (UInt64.toNat_lt_size n), UInt64.ofNat_toNat]

/-!
# Hexadecimal numerals
-/

theorem hexDigit_injective {a b : Nat} (ha : a < 16) (hb : b < 16)
    (h : hexDigit a = hexDigit b) : a = b := by
  have key : ∀ j k : Fin 16, hexDigit j.val = hexDigit k.val → j = k := by decide
  exact congrArg Fin.val (key ⟨a, ha⟩ ⟨b, hb⟩ h)

theorem hex_injective {width a b : Nat} (ha : a < 16 ^ width) (hb : b < 16 ^ width)
    (h : hex width a = hex width b) : a = b := by
  induction width generalizing a b with
  | zero =>
      have : a = 0 := by simpa using ha
      have : b = 0 := by simpa using hb
      omega
  | succ width ih =>
      rw [hex, hex] at h
      rcases List.append_inj' h rfl with ⟨hfront, hlast⟩
      have hpow : 16 ^ (width + 1) = 16 ^ width * 16 := Nat.pow_succ 16 width
      have hhigh := ih (Nat.div_lt_of_lt_mul (by omega)) (Nat.div_lt_of_lt_mul (by omega)) hfront
      have hlow := hexDigit_injective (Nat.mod_lt _ (by decide)) (Nat.mod_lt _ (by decide))
        (List.head_eq_of_cons_eq hlast)
      omega

end Numeral

end ChainIndex
