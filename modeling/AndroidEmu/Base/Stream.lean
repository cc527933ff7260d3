import AndroidEmu.CS.PackedNum
import AndroidEmu.CS.Packing

/-!
# Packed numbers in a stream

The reading side of `aemu/base/Stream.cpp`: each byte's group is shifted to its place in a 64-bit
word, where the tenth group keeps one bit.
-/

namespace AndroidEmu.Base.Stream

open CS

/-- The loop of `getPackedNum`, with at most `n` rounds left, after `i` of them. -/
def getPackedLoop : (n i res : ℕ) → Bytes → ℕ × Bytes
  | 0, _, res, bs => (res, bs)
  | n + 1, i, res, bs =>
    let byte := getByte bs
    let res := res ||| wrapNat 64 ((byte.1 % 128) <<< (7 * i))
    if byte.1 < 128 then (res, byte.2) else getPackedLoop n (i + 1) res byte.2

/-- `Stream::getPackedNum`. -/
def getPackedNum (bs : Bytes) : ℕ × Bytes := getPackedLoop 10 0 0 bs

/-- `Stream::getPackedSignedNum`. -/
def getPackedSignedNum (bs : Bytes) : ℤ × Bytes :=
  let num := getPackedNum bs
  (if num.1 % 2 = 1 then -(num.1 / 2 : ℕ) else (num.1 / 2 : ℕ), num.2)

theorem getPackedLoop_eq (n : ℕ) : ∀ {i r : ℕ} (bs : Bytes), r < 2 ^ (7 * i) →
    getPackedLoop n i (wrapNat 64 r) bs =
      (wrapNat 64 (r + 2 ^ (7 * i) * (getGroups n bs).1), (getGroups n bs).2) := by
  induction n with
  | zero => exact fun bs _ => rfl
  | succ n ih =>
    intro i r bs hr
    have hgroup : (getByte bs).1 % 128 < 2 ^ 7 := Nat.mod_lt _ (by norm_num)
    have hnext := add_two_pow_mul_lt hr hgroup
    have hor := or_shiftLeft_of_lt hr ((getByte bs).1 % 128)
    replace hor := (Nat.or_mod_two_pow (n := 64)).symm.trans (congrArg (wrapNat 64) hor)
    simp only [getPackedLoop, getGroups]
    rw [wrapNat, wrapNat, hor]
    by_cases hlast : (getByte bs).1 < 128
    · rw [if_pos hlast, if_pos hlast, Nat.mod_eq_of_lt hlast]
    · rw [if_neg hlast, if_neg hlast, ih (i := i + 1) _ hnext]
      -- seven bits further on, a group counts 128 times as much
      congr 2
      ring

theorem getPackedNum_eq (bs : Bytes) : getPackedNum bs = CS.getPackedNum bs := by
  have h := getPackedLoop_eq 10 (i := 0) (r := 0) bs (by norm_num)
  rw [Nat.mul_zero, pow_zero, Nat.one_mul, Nat.zero_add] at h
  exact h

theorem getPackedSignedNum_eq (bs : Bytes) : getPackedSignedNum bs = CS.getPackedSignedNum bs := by
  rw [getPackedSignedNum, getPackedNum_eq, CS.getPackedSignedNum]

theorem getGroups_drop (n : ℕ) (bs : Bytes) : ∃ used ≤ n, (getGroups n bs).2 = bs.drop used := by
  induction n generalizing bs with
  | zero => exact ⟨0, le_rfl, rfl⟩
  | succ n ih =>
    have hbyte : (getByte bs).2 = bs.drop 1 := by cases bs <;> rfl
    rw [getGroups]
    split_ifs
    · exact ⟨1, by omega, hbyte⟩
    · obtain ⟨used, hused, hdrop⟩ := ih (getByte bs).2
      exact ⟨1 + used, by omega, by rw [hdrop, hbyte, List.drop_drop]⟩

/-- Numbers are read back as they were written, signed ones if the assertion lets them through,
which it does for all but the smallest. No number takes more than ten bytes. -/
theorem packed_nums_read_back :
    (∀ n < 2 ^ 64, ∀ rest, getPackedNum (putPackedNum n ++ rest) = (n, rest)) ∧
      (∀ n : ℤ, -2 ^ 63 ≤ n → n < 2 ^ 63 → ∀ bytes, putPackedSignedNum n = .ok bytes →
        ∀ rest, getPackedSignedNum (bytes ++ rest) = (n, rest)) ∧
      (∀ n : ℤ, -2 ^ 63 < n → n < 2 ^ 63 → ∃ bytes, putPackedSignedNum n = .ok bytes) ∧
      ∀ bs, ∃ used ≤ 10, (getPackedNum bs).2 = bs.drop used := by
  refine ⟨fun n hn rest => ?_, fun n hlo hhi bytes hput rest => ?_, fun n hlo hhi => ?_,
    fun bs => ?_⟩
  · rw [getPackedNum_eq, getPackedNum_putPackedNum hn]
  · have hmin : n ≠ -2 ^ 63 := by
      rintro rfl
      rw [putPackedSignedNum_min] at hput
      cases hput
    obtain ⟨bytes', hput', hread⟩ := putPackedSignedNum_spec (by omega) hhi
    obtain rfl := Except.ok.inj (hput.symm.trans hput')
    rw [getPackedSignedNum_eq, hread]
  · obtain ⟨bytes, hput, -⟩ := putPackedSignedNum_spec hlo hhi
    exact ⟨bytes, hput⟩
  · rw [getPackedNum_eq]
    exact getGroups_drop 10 bs

end AndroidEmu.Base.Stream
