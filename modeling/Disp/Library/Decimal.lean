import Mathlib.Data.List.TakeWhile

/-!
# Decimal numbers in texts

A number in decimal, and a reader that takes the digits in front of a text: where something else
than a digit follows, it finds the number back.
-/

namespace Disp.Library.Decimal

open List

variable {n m : Nat} {rest rest' : List Char}

def digits (n : Nat) : List Char := Nat.toDigits 10 n

def readNumber (text : List Char) : Nat × List Char :=
  (Nat.ofDigitChars 10 (text.takeWhile Char.isDigit) 0, text.dropWhile Char.isDigit)

theorem isDigit_of_mem_digits {c : Char} (h : c ∈ digits n) : c.isDigit = true :=
  Nat.isDigit_of_mem_toDigits (by decide) (by decide) h

theorem readNumber_digits
    (h : ∀ character rest', rest = character :: rest' → character.isDigit = false) :
    readNumber (digits n ++ rest) = (n, rest) := by
  have hdigits : ∀ character ∈ digits n, character.isDigit = true :=
    fun _ => isDigit_of_mem_digits
  have htake : rest.takeWhile Char.isDigit = [] ∧ rest.dropWhile Char.isDigit = rest := by
    cases rest with
    | nil => simp
    | cons character rest' => simp [h character rest' rfl]
  rw [readNumber, takeWhile_append_of_pos hdigits, dropWhile_append_of_pos hdigits,
    htake.1, htake.2]
  simp [digits]

theorem digits_head (n : Nat) (rest : List Char) :
    ∃ character rest', digits n ++ rest = character :: rest' ∧ character.isDigit = true := by
  obtain ⟨character, tail, hdigits⟩ := exists_cons_of_ne_nil (l := digits n) Nat.toDigits_ne_nil
  refine ⟨character, tail ++ rest, by rw [hdigits]; rfl, isDigit_of_mem_digits (n := n) ?_⟩
  rw [hdigits]
  exact mem_cons_self ..

theorem digits_injective (h : digits n = digits m) : n = m := by
  calc
    n = Nat.ofDigitChars 10 (digits n) 0 := Nat.ofDigitChars_ten_toDigits.symm
    _ = Nat.ofDigitChars 10 (digits m) 0 := by rw [h]
    _ = m := Nat.ofDigitChars_ten_toDigits

/-- A separator that is no digit ends the number before it. -/
theorem digits_separated {separator : Char} (hseparator : separator.isDigit = false)
    (h : digits n ++ separator :: rest = digits m ++ separator :: rest') :
    n = m ∧ rest = rest' := by
  have hstop : ∀ (rest : List Char) character rest', separator :: rest = character :: rest' →
      character.isDigit = false := by
    rintro _ _ _ ⟨⟩
    exact hseparator
  have hn := readNumber_digits (n := n) (hstop rest)
  rw [h, readNumber_digits (hstop rest')] at hn
  obtain ⟨rfl, htail⟩ := Prod.mk.inj hn
  exact ⟨rfl, (List.cons.inj htail).2.symm⟩

end Disp.Library.Decimal
