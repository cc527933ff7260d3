import Mathlib.Tactic

/-!
# Big-endian byte streams

Reading past the end of a stream yields zero bytes and leaves it empty.
-/

namespace CS

/-- The bytes of a stream that are still to be read. -/
abbrev Bytes := List UInt8

def putBe : ℕ → ℕ → Bytes
  | 0, _ => []
  | n + 1, v => UInt8.ofNat (v / 256 ^ n) :: putBe n (v % 256 ^ n)

/-- Read a byte, zero at the end of the stream. -/
def getByte : Bytes → ℕ × Bytes
  | [] => (0, [])
  | b :: bs => (b.toNat, bs)

def getBe : ℕ → Bytes → ℕ × Bytes
  | 0, bs => (0, bs)
  | n + 1, bs =>
    let b := getByte bs
    let v := getBe n b.2
    (b.1 * 256 ^ n + v.1, v.2)

/-- A value of `8 * n` bits fits in `n` bytes. -/
theorem lt_pow_bytes {n v : ℕ} (h : v < 2 ^ (8 * n)) : v < 256 ^ n := by
  rwa [pow_mul] at h

/-- Reading returns what was written, and the rest of the stream. -/
theorem getBe_putBe (n : ℕ) {v : ℕ} (hv : v < 256 ^ n) (rest : Bytes) :
    getBe n (putBe n v ++ rest) = (v, rest) := by
  induction n generalizing v with
  | zero =>
    obtain rfl : v = 0 := by simpa using hv
    rfl
  | succ n ih =>
    have hpos : 0 < 256 ^ n := by positivity
    have hhigh : v / 256 ^ n < 256 := by
      rw [Nat.div_lt_iff_lt_mul hpos, Nat.mul_comm]
      exact hv
    have hbyte : (UInt8.ofNat (v / 256 ^ n)).toNat = v / 256 ^ n := by exact Nat.mod_eq_of_lt hhigh
    simp only [putBe, List.cons_append, getBe, getByte, ih (Nat.mod_lt _ hpos), hbyte]
    rw [Nat.mul_comm, Nat.div_add_mod]

variable {α : Type}

def getMany (get : Bytes → α × Bytes) : ℕ → Bytes → List α × Bytes
  | 0, bs => ([], bs)
  | n + 1, bs =>
    let x := get bs
    let xs := getMany get n x.2
    (x.1 :: xs.1, xs.2)

/-- Reading records returns the records written. -/
theorem getMany_flatMap {get : Bytes → α × Bytes} {put : α → Bytes} (xs : List α)
    (h : ∀ x ∈ xs, ∀ rest, get (put x ++ rest) = (x, rest)) (rest : Bytes) :
    getMany get xs.length (xs.flatMap put ++ rest) = (xs, rest) := by
  induction xs with
  | nil => rfl
  | cons x xs ih =>
    have hx := h x (by simp)
    have hxs := ih fun y hy => h y (List.mem_cons_of_mem x hy)
    simp only [List.flatMap_cons, List.length_cons, getMany, List.append_assoc, hx, hxs]

end CS
