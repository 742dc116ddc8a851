import Mathlib

/-!
# Hexadecimal digits

The tests and conversions of ASCIICType.h and Lexer.h that readers of escapes share, against what a
hexadecimal digit is.
-/

namespace JscAndroid.Wtf.HexDigits

def isASCIIDigit (c : ℕ) : Bool := '0'.toNat ≤ c && c ≤ '9'.toNat

def isASCIIHexDigit (c : ℕ) : Bool :=
  isASCIIDigit c || ('a'.toNat ≤ c && c ≤ 'f'.toNat) || ('A'.toNat ≤ c && c ≤ 'F'.toNat)

def toASCIIHexValue (c : ℕ) : ℕ :=
  if c < 'A'.toNat then c - '0'.toNat else (c - 'A'.toNat + 10) % 16

/-- The two values are put side by side. -/
def convertHex (c₁ c₂ : ℕ) : ℕ := toASCIIHexValue c₁ * 2 ^ 4 + toASCIIHexValue c₂

def convertUnicode (c₁ c₂ c₃ c₄ : ℕ) : ℕ := convertHex c₁ c₂ * 2 ^ 8 + convertHex c₃ c₄

/-- `c` is the hexadecimal digit for `n`. -/
def IsHexDigit (c : ℕ) (n : ℕ) : Prop :=
  (('0'.toNat ≤ c ∧ c ≤ '9'.toNat) ∧ n = c - '0'.toNat) ∨
    ('a'.toNat ≤ c ∧ c ≤ 'f'.toNat ∧ n = c - 'a'.toNat + 10) ∨
    ('A'.toNat ≤ c ∧ c ≤ 'F'.toNat ∧ n = c - 'A'.toNat + 10)

theorem isHexDigit_iff {c n : ℕ} :
    IsHexDigit c n ↔ isASCIIHexDigit c = true ∧ toASCIIHexValue c = n := by
  have h0 : '0'.toNat = 48 := rfl
  have h9 : '9'.toNat = 57 := rfl
  have ha : 'a'.toNat = 97 := rfl
  have hf : 'f'.toNat = 102 := rfl
  have hA : 'A'.toNat = 65 := rfl
  have hF : 'F'.toNat = 70 := rfl
  simp only [IsHexDigit, isASCIIHexDigit, isASCIIDigit, toASCIIHexValue, Bool.or_eq_true,
    Bool.and_eq_true, decide_eq_true_eq]
  split_ifs <;> omega

theorem IsHexDigit.lt {c n : ℕ} (h : IsHexDigit c n) : n < 16 := by
  simp only [IsHexDigit, Char.reduceToNat] at h
  omega

theorem isHexDigit_of_isASCIIHexDigit {c : ℕ} (h : isASCIIHexDigit c = true) :
    IsHexDigit c (toASCIIHexValue c) := isHexDigit_iff.mpr ⟨h, rfl⟩

end JscAndroid.Wtf.HexDigits
