import AndroidEmu.CS.Checked

/-!
# Arrays in C memory

A heap array is the list of all elements that were allocated for it, used or not. Reads, writes and
`memmove` stop with `outOfBounds` when they leave it. The allocator behind `malloc`, `calloc` and
`realloc` is a predicate on the number of bytes asked for.
-/

namespace CS

open List Nat

/-! ### Machine integers -/

/-- The value kept by an unsigned integer of `w` bits. -/
def wrapNat (w n : ℕ) : ℕ := n % 2 ^ w

/-- Unsigned subtraction on `w` bits: a negative difference wraps around. -/
def subNat (w a b : ℕ) : ℕ := (a + 2 ^ w - b % 2 ^ w) % 2 ^ w

theorem wrapNat_lt (w n : ℕ) : wrapNat w n < 2 ^ w := mod_lt _ (by positivity)

variable {w n a b i k dst src : ℕ}

theorem wrapNat_of_lt (h : n < 2 ^ w) : wrapNat w n = n := mod_eq_of_lt h

theorem subNat_lt (w a b : ℕ) : subNat w a b < 2 ^ w := mod_lt _ (by positivity)

theorem subNat_of_le (hba : b ≤ a) (ha : a < 2 ^ w) : subNat w a b = a - b := by
  unfold subNat
  rw [mod_eq_of_lt (lt_of_le_of_lt hba ha),
    show a + 2 ^ w - b = (a - b) + 2 ^ w by omega, add_mod_right]
  exact mod_eq_of_lt (by omega)

theorem subNat_of_lt (hab : a < b) (hb : b < 2 ^ w) : subNat w a b = a + 2 ^ w - b := by
  unfold subNat
  rw [mod_eq_of_lt hb]
  exact mod_eq_of_lt (by omega)

/-- The value kept by a 32-bit signed `int`. -/
def wrapInt (n : ℤ) : ℤ := Int.bmod n (2 ^ 32)

theorem wrapInt_of_bounds {n : ℤ} (hlo : -2 ^ 31 ≤ n) (hhi : n < 2 ^ 31) : wrapInt n = n := by
  exact Int.bmod_eq_of_le (by norm_num; omega) (by norm_num; omega)

theorem wrapInt_lt (n : ℤ) : wrapInt n < 2 ^ 31 := by
  have h := @Int.bmod_lt n (2 ^ 32) (by norm_num)
  unfold wrapInt
  omega

theorem neg_le_wrapInt (n : ℤ) : -2 ^ 31 ≤ wrapInt n := by
  have h := @Int.le_bmod n (2 ^ 32) (by norm_num)
  unfold wrapInt
  omega

/-- A number that is not too small is not exceeded by the value kept. -/
theorem wrapInt_le {n : ℤ} (h : -2 ^ 31 ≤ n) : wrapInt n ≤ n := by
  by_cases hn : n < 2 ^ 31
  · rw [wrapInt_of_bounds h hn]
  · have := wrapInt_lt n
    omega

/-- Too large a number is kept as a negative one. -/
theorem wrapInt_neg {n : ℤ} (hlo : 2 ^ 31 ≤ n) (hhi : n < 2 ^ 32) : wrapInt n < 0 := by
  have hwrap : wrapInt n = wrapInt (n - 2 ^ 32) := (Int.sub_bmod_right n (2 ^ 32)).symm
  rw [hwrap, wrapInt_of_bounds (by omega) (by omega)]
  omega

def addInt (m n : ℤ) : Checked ℤ :=
  if -2 ^ 31 ≤ m + n ∧ m + n < 2 ^ 31 then .ok (m + n) else .error .overflow

theorem addInt_of_bounds {m n : ℤ} (hlo : -2 ^ 31 ≤ m + n) (hhi : m + n < 2 ^ 31) :
    addInt m n = .ok (m + n) := if_pos ⟨hlo, hhi⟩

theorem addInt_of_le {m n : ℤ} (h : 2 ^ 31 ≤ m + n) : addInt m n = .error .overflow := by
  apply if_neg
  omega

/-- The value kept by a 64-bit signed integer. -/
def wrapInt64 (n : ℤ) : ℤ := Int.bmod n (2 ^ 64)

theorem wrapInt64_of_bounds {n : ℤ} (hlo : -2 ^ 63 ≤ n) (hhi : n < 2 ^ 63) : wrapInt64 n = n := by
  exact Int.bmod_eq_of_le (by norm_num; omega) (by norm_num; omega)

theorem wrapInt64_bounds (n : ℤ) : -2 ^ 63 ≤ wrapInt64 n ∧ wrapInt64 n < 2 ^ 63 := by
  have hlt := @Int.bmod_lt n (2 ^ 64) (by norm_num)
  have hle := @Int.le_bmod n (2 ^ 64) (by norm_num)
  unfold wrapInt64
  omega

theorem wrapInt64_add_wrapInt64 (m n : ℤ) : wrapInt64 (m + wrapInt64 n) = wrapInt64 (m + n) :=
  Int.add_bmod_bmod

def toUInt64 (n : ℤ) : ℕ := (n % 2 ^ 64).toNat

theorem toUInt64_cast (n : ℤ) : (toUInt64 n : ℤ) = n % 2 ^ 64 :=
  Int.toNat_of_nonneg (Int.emod_nonneg n (by norm_num))

theorem toUInt64_lt (n : ℤ) : toUInt64 n < 2 ^ 64 := by
  have := toUInt64_cast n
  omega

theorem wrapInt64_toUInt64 (n : ℤ) : wrapInt64 (toUInt64 n) = wrapInt64 n := by
  rw [toUInt64_cast]
  exact Int.emod_bmod n (2 ^ 64)

theorem wrapInt_toUInt64 (n : ℤ) : wrapInt (toUInt64 n) = wrapInt n := by
  rw [toUInt64_cast, wrapInt, wrapInt, Int.bmod_def, Int.bmod_def,
    Int.emod_emod_of_dvd n (by norm_num)]

/-! ### The allocator -/

/-- A memory allocator: which requests, in bytes, it grants. No allocator grants a
request beyond `PTRDIFF_MAX`. -/
structure Heap where
  grants : ℕ → Bool
  refuses_oversized : ∀ n, 2 ^ 63 ≤ n → grants n = false

/-- The allocator that grants every request it may grant. -/
def Heap.ample : Heap where
  grants n := decide (n < 2 ^ 63)
  refuses_oversized n h := by simpa using h

theorem Heap.lt_of_grants {heap : Heap} (h : heap.grants n = true) : n < 2 ^ 63 := by
  by_contra hn
  rw [heap.refuses_oversized n (by omega)] at h
  exact Bool.false_ne_true h

/-! ### Element access -/

variable {α : Type}

def readAt (xs : List α) (i : ℕ) : Checked α :=
  match xs[i]? with
  | some x => .ok x
  | none => .error .outOfBounds

def writeAt (xs : List α) (i : ℕ) (x : α) : Checked (List α) :=
  if i < xs.length then .ok (xs.set i x) else .error .outOfBounds

/-- Copy `n` elements from `src` to `dst`, both inside the array; the ranges may
overlap. -/
def memmove (xs : List α) (dst src n : ℕ) : Checked (List α) :=
  if src + n ≤ xs.length ∧ dst + n ≤ xs.length then
    .ok (xs.take dst ++ (xs.drop src).take n ++ xs.drop (dst + n))
  else .error .outOfBounds

/-- Copy elements from elsewhere to the place `dst` of the array. -/
def memcpy (xs : List α) (dst : ℕ) (ys : List α) : Checked (List α) :=
  if dst + ys.length ≤ xs.length then .ok (xs.take dst ++ ys ++ xs.drop (dst + ys.length))
  else .error .outOfBounds

/-- Fill an array of `n` elements, from the first one on. -/
def tabulate (f : ℕ → Checked α) : ℕ → Checked (List α)
  | 0 => .ok []
  | n + 1 => do
    let xs ← tabulate f n
    let x ← f n
    return xs ++ [x]

variable {xs : List α}

theorem tabulate_eq_ok {f : ℕ → Checked α} :
    tabulate f n = .ok xs ↔ xs.length = n ∧ ∀ i x, xs[i]? = some x → f i = .ok x := by
  induction n generalizing xs with
  | zero =>
    rw [tabulate, Except.ok.injEq, length_eq_zero_iff]
    exact ⟨fun h => ⟨h.symm, by simp [← h]⟩, fun h => h.1.symm⟩
  | succ n ih =>
    simp only [tabulate, Checked.bind_eq_ok, Checked.pure_eq_ok, Except.ok.injEq, ih]
    constructor
    · rintro ⟨ys, ⟨rfl, hys⟩, y, hy, rfl⟩
      refine ⟨by simp, fun i x hx => ?_⟩
      rcases lt_trichotomy i ys.length with hi | rfl | hi
      · rw [getElem?_append_left hi] at hx
        exact hys i x hx
      · rw [getElem?_concat_length, Option.some.injEq] at hx
        exact hx ▸ hy
      · rw [getElem?_eq_none (by simp; omega)] at hx
        exact absurd hx (by simp)
    · rintro ⟨hlen, hxs⟩
      have hne : xs ≠ [] := by
        rintro rfl
        simp at hlen
      refine ⟨xs.dropLast, ⟨by simp [hlen], fun i x hx => hxs i x ?_⟩, xs.getLast hne, ?_,
        dropLast_append_getLast hne⟩
      · rw [getElem?_dropLast] at hx
        split_ifs at hx
        exact hx
      · refine hxs n _ ?_
        rw [← getLast?_eq_some_getLast hne, getLast?_eq_getElem?, hlen]
        rfl

theorem readAt_of_getElem? {x : α} (h : xs[i]? = some x) : readAt xs i = .ok x := by
  simp only [readAt, h]

theorem readAt_eq_ok {x : α} : readAt xs i = .ok x ↔ xs[i]? = some x := by
  unfold readAt
  cases xs[i]? <;> simp

theorem readAt_of_le (h : xs.length ≤ i) : readAt xs i = .error .outOfBounds := by
  simp only [readAt, getElem?_eq_none h]

section

variable (pre : List α)

include pre

@[simp] theorem readAt_append_cons (x : α) (post : List α) :
    readAt (pre ++ x :: post) pre.length = .ok x :=
  readAt_of_getElem? (by simp)

@[simp] theorem readAt_append_cons_one (x y : α) (post : List α) :
    readAt (pre ++ x :: y :: post) (pre.length + 1) = .ok y := by
  simpa using readAt_append_cons (pre ++ [x]) y post

@[simp] theorem readAt_append_cons_two (x y z : α) (post : List α) :
    readAt (pre ++ x :: y :: z :: post) (pre.length + 2) = .ok z := by
  simpa using readAt_append_cons (pre ++ [x, y]) z post

omit pre in
theorem writeAt_of_lt (h : i < xs.length) (x : α) : writeAt xs i x = .ok (xs.set i x) := if_pos h

omit pre in
theorem writeAt_of_le (h : xs.length ≤ i) (x : α) :
    writeAt xs i x = .error .outOfBounds := if_neg (by omega)

@[simp] theorem writeAt_append_cons (x y : α) (post : List α) :
    writeAt (pre ++ x :: post) pre.length y = .ok (pre ++ y :: post) := by
  rw [writeAt_of_lt (by simp)]
  simp

@[simp] theorem writeAt_append_cons_one (x y z : α) (post : List α) :
    writeAt (pre ++ x :: y :: post) (pre.length + 1) z = .ok (pre ++ x :: z :: post) := by
  simpa using writeAt_append_cons (pre ++ [x]) y z post

@[simp] theorem writeAt_append_cons_two (w x y z : α) (post : List α) :
    writeAt (pre ++ w :: x :: y :: post) (pre.length + 2) z = .ok (pre ++ w :: x :: z :: post) := by
  simpa using writeAt_append_cons (pre ++ [w, x]) y z post

omit pre in
/-- Moving a range of `n` elements up by `k` opens a gap of `k` stale elements
before it. -/
theorem memmove_open (pre rest : List α) (h : k + n ≤ rest.length) :
    memmove (pre ++ rest) (pre.length + k) pre.length n =
      .ok (pre ++ rest.take k ++ rest.take n ++ rest.drop (k + n)) := by
  have hlen : (pre ++ rest).length = pre.length + rest.length := length_append
  rw [memmove, if_pos (by omega), take_length_add_append, drop_left, add_assoc,
    drop_length_add_append]

omit pre in
/-- Moving a range of `n` elements down by `k` closes the gap of `k` elements
before it. -/
theorem memmove_close (pre rest : List α) (h : k + n ≤ rest.length) :
    memmove (pre ++ rest) pre.length (pre.length + k) n =
      .ok (pre ++ (rest.drop k).take n ++ rest.drop n) := by
  have hlen : (pre ++ rest).length = pre.length + rest.length := length_append
  rw [memmove, if_pos (by omega), take_left, drop_length_add_append, drop_length_add_append]

/-- Closing the gap `stale` after `x`. -/
theorem memmove_close_after (x : α) (stale mid post : List α) :
    ∃ rest, rest.length = stale.length + post.length ∧
      memmove (pre ++ x :: (stale ++ mid ++ post)) (pre.length + 1)
        (pre.length + 1 + stale.length) mid.length = .ok (pre ++ x :: (mid ++ rest)) := by
  refine ⟨(stale ++ mid ++ post).drop mid.length, ?_, ?_⟩
  · simp only [length_drop, length_append]
    omega
  · have hclose := memmove_close (pre ++ [x]) (stale ++ mid ++ post) (n := mid.length)
      (k := stale.length) (by simp only [length_append]; omega)
    simp only [length_append, length_singleton, append_assoc, cons_append,
      nil_append, drop_left, take_left] at hclose ⊢
    exact hclose

theorem memmove_close_one (x y : α) (mid post : List α) : ∃ rest, rest.length = post.length + 1 ∧
      memmove (pre ++ x :: y :: (mid ++ post)) (pre.length + 1) (pre.length + 2) mid.length =
        .ok (pre ++ x :: (mid ++ rest)) := by
  simpa [add_comm 1] using memmove_close_after pre x [y] mid post

theorem memmove_close_two (x y z : α) (mid post : List α) : ∃ rest, rest.length = post.length + 2 ∧
      memmove (pre ++ x :: y :: z :: (mid ++ post)) (pre.length + 1) (pre.length + 3) mid.length =
        .ok (pre ++ x :: (mid ++ rest)) := by
  simpa [add_comm 2] using memmove_close_after pre x [y, z] mid post

end

theorem memcpy_of_le {xs ys : List α} (h : dst + ys.length ≤ xs.length) :
    memcpy xs dst ys = .ok (xs.take dst ++ ys ++ xs.drop (dst + ys.length)) := if_pos h

theorem memmove_of_lt (h : xs.length < dst + n) :
    memmove xs dst src n = .error .outOfBounds := if_neg (by omega)

end CS
