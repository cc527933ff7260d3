import AndroidEmu.CS.ByteStream
import AndroidEmu.CS.Memory

/-!
# Packed numbers

A packed number is written in groups of seven bits, the least significant group first, one group a
byte; all bytes but the last have their highest bit set. A signed number is packed as its absolute
value with the sign below it, which the smallest 64-bit integer does not have.
-/

namespace CS

/-- Write a number that has at most `n` groups. -/
def putGroups : ℕ → ℕ → Bytes
  | 0, _ => []
  | n + 1, num =>
    if num / 128 = 0 then [UInt8.ofNat (num % 128)]
    else UInt8.ofNat (num % 128 + 128) :: putGroups n (num / 128)

/-- Read at most `n` groups. -/
def getGroups : ℕ → Bytes → ℕ × Bytes
  | 0, bs => (0, bs)
  | n + 1, bs =>
    let b := getByte bs
    if b.1 < 128 then (b.1, b.2)
    else
      let v := getGroups n b.2
      (b.1 % 128 + 128 * v.1, v.2)

def putPackedNum (num : ℕ) : Bytes := putGroups 10 num

def getPackedNum (bs : Bytes) : ℕ × Bytes :=
  let v := getGroups 10 bs
  (wrapNat 64 v.1, v.2)

def putPackedSignedNum (num : ℤ) : Checked Bytes :=
  if 0 ≤ num then do
    check (num < 2 ^ 63)
    return putPackedNum (2 * num.toNat)
  else do
    check (-num < 2 ^ 63)
    return putPackedNum (2 * (-num).toNat + 1)

def getPackedSignedNum (bs : Bytes) : ℤ × Bytes :=
  let num := getPackedNum bs
  (if num.1 % 2 = 1 then -(num.1 / 2 : ℕ) else (num.1 / 2 : ℕ), num.2)

theorem getGroups_putGroups (n : ℕ) {num : ℕ} (h : num < 128 ^ (n + 1)) (rest : Bytes) :
    getGroups (n + 1) (putGroups (n + 1) num ++ rest) = (num, rest) := by
  -- a byte carries a group and tells whether it is the last one
  have hbyte : ∀ {b : ℕ}, b < 256 → (UInt8.ofNat b).toNat = b := fun hb => by
    exact Nat.mod_eq_of_lt hb
  induction n generalizing num with
  | zero =>
    rw [putGroups, if_pos (by omega)]
    simp only [List.cons_append, List.nil_append, getGroups, getByte,
      hbyte (show num % 128 < 256 by omega)]
    rw [if_pos (by omega), Nat.mod_eq_of_lt (by omega)]
  | succ n ih =>
    rw [putGroups]
    by_cases hlast : num / 128 = 0
    · rw [if_pos hlast]
      simp only [List.cons_append, List.nil_append, getGroups, getByte,
        hbyte (show num % 128 < 256 by omega)]
      rw [if_pos (by omega), Nat.mod_eq_of_lt (by omega)]
    · have hrest := ih (show num / 128 < 128 ^ (n + 1) by rw [pow_succ] at h; omega)
      rw [if_neg hlast, List.cons_append, getGroups]
      simp only [getByte, hbyte (show num % 128 + 128 < 256 by omega), hrest]
      rw [if_neg (by omega)]
      exact Prod.ext (by simp only; omega) rfl

/-- Reading returns what was written, and the rest of the stream. -/
theorem getPackedNum_putPackedNum {num : ℕ} (h : num < 2 ^ 64) (rest : Bytes) :
    getPackedNum (putPackedNum num ++ rest) = (num, rest) := by
  rw [getPackedNum, putPackedNum, getGroups_putGroups 9 (by omega)]
  exact Prod.ext (wrapNat_of_lt h) rfl

/-- Signed numbers other than the smallest one are written, and reading returns them. -/
theorem putPackedSignedNum_spec {num : ℤ} (hlo : -2 ^ 63 < num) (hhi : num < 2 ^ 63) :
    ∃ bytes, putPackedSignedNum num = .ok bytes ∧
      ∀ rest, getPackedSignedNum (bytes ++ rest) = (num, rest) := by
  rw [putPackedSignedNum]
  by_cases hnum : 0 ≤ num
  · rw [if_pos hnum, check_of hhi]
    refine ⟨_, rfl, fun rest => ?_⟩
    rw [getPackedSignedNum, getPackedNum_putPackedNum (by omega)]
    exact Prod.ext (by simp only; rw [if_neg (by omega)]; omega) rfl
  · rw [if_neg hnum, check_of (by omega)]
    refine ⟨_, rfl, fun rest => ?_⟩
    rw [getPackedSignedNum, getPackedNum_putPackedNum (by omega)]
    exact Prod.ext (by simp only; rw [if_pos (by omega)]; omega) rfl

/-- The smallest number is not written. -/
theorem putPackedSignedNum_min : putPackedSignedNum (-2 ^ 63) = .error .assertion := rfl

end CS
