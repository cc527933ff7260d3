import AndroidEmu.CS.ByteStream
import Mathlib.Data.FinEnum

/-!
# Numerals

Digits in a base up to 36, as the C library reads and prints them.
-/

namespace CS

open List

/-- What a digit or a letter stands for, and 36 for any other character. -/
def digitValue (c : UInt8) : ℕ :=
  if 0x30 ≤ c ∧ c ≤ 0x39 then c.toNat - 0x30
  else if 0x41 ≤ c ∧ c ≤ 0x5a then c.toNat - 0x37
  else if 0x61 ≤ c ∧ c ≤ 0x7a then c.toNat - 0x57 else 36

def isBlank (c : UInt8) : Bool := c == 0x20 || (0x09 ≤ c && c ≤ 0x0d)

def isSign (c : UInt8) : Bool := c == 0x2b || c == 0x2d

/-- The digits in front, after those of `v`, and what follows them. -/
def readDigits (b v : ℕ) : Bytes → ℕ × Bytes
  | [] => (v, [])
  | c :: s => if digitValue c < b then readDigits b (b * v + digitValue c) s else (v, c :: s)

/-- `strtol` and its kin: the number in front and what follows it, without a range. A string without
digits is left alone. -/
def strto (b : ℕ) (s : Bytes) : ℤ × Bytes :=
  let t := s.dropWhile isBlank
  let digits := if t.head?.any isSign then t.tail else t
  let r := readDigits b 0 digits
  if r.2 = digits then (0, s) else (if t.head? = some 0x2d then -r.1 else r.1, r.2)

/-- No digit is skipped, and one is zero. -/
theorem digitValue_spec : ∀ c, (digitValue c = 0 ↔ c = 0x30) ∧
    (digitValue c < 36 → isBlank c = false ∧ isSign c = false ∧ c ≠ 0x2d) := by decide +kernel

end CS
