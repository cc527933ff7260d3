import AndroidEmu.CS.ByteStream
import Mathlib.Data.Nat.Digits.Defs

/-!
# Groups of bits in bytes

Bytes are the digits of a number, the least significant one first. Values of `w` bits that are
packed one after the other are the digits of the same number to the base `2 ^ w`.
-/

namespace CS

variable {w n x : ℕ} {as bs : Bytes}

/-- The number whose digits are the bytes, the least significant first. -/
def leNat (bs : Bytes) : ℕ := Nat.ofDigits 256 (bs.map UInt8.toNat)

@[simp] theorem leNat_nil : leNat [] = 0 := rfl

theorem leNat_cons (b : UInt8) (bs : Bytes) : leNat (b :: bs) = b.toNat + 256 * leNat bs := by
  simp [leNat, Nat.ofDigits_cons]

theorem leNat_append (as bs : Bytes) :
    leNat (as ++ bs) = leNat as + 256 ^ as.length * leNat bs := by
  simp [leNat, Nat.ofDigits_append]

theorem leNat_lt (bs : Bytes) : leNat bs < 256 ^ bs.length := by
  induction bs with
  | nil => simp
  | cons b bs ih =>
    have hb := b.toNat_lt
    rw [leNat_cons, List.length_cons]
    omega

theorem leNat_replicate_zero (n : ℕ) : leNat (List.replicate n 0) = 0 := by
  induction n with
  | zero => rfl
  | succ n ih => rw [List.replicate_succ, leNat_cons, ih]; rfl

/-- Bits that are shifted past others are added to them. -/
theorem or_shiftLeft_of_lt {bits size : ℕ} (h : bits < 2 ^ size) (v : ℕ) :
    bits ||| v <<< size = bits + 2 ^ size * v := by
  rw [Nat.or_comm, Nat.shiftLeft_eq, mul_comm, ← Nat.two_pow_add_eq_or_of_lt h, add_comm]

theorem add_two_pow_mul_lt {bits size v : ℕ} (h : bits < 2 ^ size) (hv : v < 2 ^ w) :
    bits + 2 ^ size * v < 2 ^ (size + w) := by
  rw [pow_add]
  nlinarith

/-- The first `n` groups of `w` bits. -/
def groups (w : ℕ) : ℕ → ℕ → List ℕ
  | 0, _ => []
  | n + 1, v => v % 2 ^ w :: groups w n (v / 2 ^ w)

theorem drop_groups (k n v : ℕ) : (groups w (k + n) v).drop k = groups w n (v / (2 ^ w) ^ k) := by
  induction k generalizing v with
  | zero => simp
  | succ k ih =>
    rw [show k + 1 + n = k + n + 1 by omega, groups, List.drop_succ_cons, ih,
      Nat.div_div_eq_div_mul, pow_succ']

/-- Values are the groups of the number they are digits of, whatever is behind them. -/
theorem groups_ofDigits {values : List ℕ} (h : ∀ v ∈ values, v < 2 ^ w) (x : ℕ) :
    groups w values.length (Nat.ofDigits (2 ^ w) values + (2 ^ w) ^ values.length * x) =
      values := by
  induction values with
  | nil => rfl
  | cons v values ih =>
    obtain ⟨hv, hvalues⟩ := List.forall_mem_cons.mp h
    have hsplit : Nat.ofDigits (2 ^ w) (v :: values) + (2 ^ w) ^ (v :: values).length * x =
        v + 2 ^ w * (Nat.ofDigits (2 ^ w) values + (2 ^ w) ^ values.length * x) := by
      rw [Nat.ofDigits_cons, List.length_cons]
      ring
    rw [hsplit, List.length_cons, groups, Nat.add_mul_mod_self_left, Nat.mod_eq_of_lt hv,
      Nat.add_mul_div_left _ _ (by positivity), Nat.div_eq_of_lt hv, zero_add, ih hvalues]

end CS
