import Mathlib.Tactic

/-!
# Rings of cells

Positions on a ring are numbers that only grow; the cell of a position is its remainder. What
matters about a ring is the *window* of cells from a position on, read as a list.
-/

namespace CS

open Function List Nat

variable {α : Type} {f g : ℕ → α} {n p q k : ℕ}

/-! ### Windows -/

/-- The cells of the `k` positions from `p` on, in a ring of `n` cells. -/
def window (f : ℕ → α) (n p k : ℕ) : List α :=
  (List.range k).map fun i => f ((p + i) % n)

@[simp] theorem length_window (f : ℕ → α) (n p k : ℕ) : (window f n p k).length = k := by
  simp [window]

theorem window_append (f : ℕ → α) (n p j k : ℕ) :
    window f n p (j + k) = window f n p j ++ window f n (p + j) k := by
  simp only [window, range_add, map_append, List.map_map]
  congr 1
  apply map_congr_left
  intro i _
  simp only [comp_apply]
  congr 2
  exact (add_assoc p j i).symm

theorem window_succ (f : ℕ → α) (n p k : ℕ) :
    window f n p (k + 1) = f (p % n) :: window f n (p + 1) k := by
  rw [add_comm, window_append]
  rfl

/-- Windows depend only on the cells they show. -/
theorem window_congr (h : ∀ i, i < k → f ((p + i) % n) = g ((p + i) % n)) :
    window f n p k = window g n p k := by
  apply map_congr_left
  intro i hi
  exact h i (mem_range.mp hi)

/-- Positions a multiple of the size apart have the same window. -/
theorem window_mod (h : p % n = q % n) (f : ℕ → α) (k : ℕ) : window f n p k = window f n q k := by
  apply map_congr_left
  intro i _
  rw [add_mod, h, ← add_mod]

variable {i j p c : ℕ}

/-- Fewer than a whole turn apart, positions have different cells. -/
theorem mod_ne_of_lt (hij : i < j) (hj : j < i + n) : i % n ≠ j % n := by
  intro h
  have hdvd : n ∣ j - i := (modEq_iff_dvd' hij.le).mp h
  exact absurd (le_of_dvd (by omega) hdvd) (by omega)

/-- A ring that is turned until position `p` comes first, and followed by other cells. -/
theorem window_rotate (xs ys : List α) (hp : p ≤ xs.length) (d : α) :
    window (fun i => (xs.drop p ++ xs.take p ++ ys).getD i d)
      ((xs.drop p ++ xs.take p ++ ys).length) 0 xs.length =
      window (fun i => xs.getD i d) xs.length p xs.length := by
  apply map_congr_left
  intro i hi
  have hi : i < xs.length := mem_range.mp hi
  have hlen : (xs.drop p ++ xs.take p).length = xs.length := by
    simp only [length_append, length_drop, length_take]
    omega
  rw [zero_add, mod_eq_of_lt (by rw [length_append, hlen]; omega)]
  simp only [getD_eq_getElem?_getD]
  rw [getElem?_append_left (by omega)]
  congr 1
  by_cases hfront : i < xs.length - p
  · rw [getElem?_append_left (by rwa [length_drop]), getElem?_drop, mod_eq_of_lt (by omega)]
  rw [getElem?_append_right (by rw [length_drop]; omega), length_drop,
    getElem?_take_of_lt (by omega), mod_eq_sub_mod (by omega),
    mod_eq_of_lt (by omega)]
  congr 1
  omega

/-! ### Stores -/

/-- Store the values at the positions from `p` on. -/
def putRing (n : ℕ) : (ℕ → α) → ℕ → List α → ℕ → α
  | f, _, [] => f
  | f, p, x :: xs => putRing n (Function.update f (p % n) x) (p + 1) xs

theorem putRing_append (n : ℕ) (xs ys : List α) : ∀ (f : ℕ → α) (p : ℕ),
    putRing n f p (xs ++ ys) = putRing n (putRing n f p xs) (p + xs.length) ys := by
  induction xs with
  | nil => exact fun _ _ => rfl
  | cons x xs ih =>
    intro f p
    rw [cons_append, putRing, ih, length_cons]
    congr 1
    omega

variable {xs : List α}

/-- A store leaves the cells of other positions alone. -/
theorem putRing_of_ne (h : ∀ i, i < xs.length → (p + i) % n ≠ c) : putRing n f p xs c = f c := by
  induction xs generalizing f p with
  | nil => rfl
  | cons x xs ih =>
    have hrest : ∀ i, i < xs.length → (p + 1 + i) % n ≠ c := by
      intro i hi
      have := h (i + 1) (by simpa using hi)
      rwa [show p + (i + 1) = p + 1 + i by omega] at this
    rw [putRing, ih hrest, update_of_ne]
    exact (h 0 (by simp)).symm

/-- A store does not change the positions before it, up to a whole turn. -/
theorem window_putRing_before (h : k + xs.length ≤ n) :
    window (putRing n f (p + k) xs) n p k = window f n p k := by
  apply window_congr
  intro i hi
  apply putRing_of_ne
  intro j hj
  exact (mod_ne_of_lt (by omega) (by omega)).symm

/-- A store of at most one turn fills its own positions. -/
theorem window_putRing (h : xs.length ≤ n) : window (putRing n f p xs) n p xs.length = xs := by
  induction xs generalizing f p with
  | nil => rfl
  | cons x xs ih =>
    rw [length_cons, window_succ, putRing]
    have hlen : xs.length + 1 ≤ n := h
    congr 1
    · rw [putRing_of_ne, update_self]
      intro i hi
      exact (mod_ne_of_lt (by omega) (by omega)).symm
    · exact ih (by omega)

/-! ### Ranges that do not wrap -/

/-- Store the values in successive cells. -/
def putCells : (ℕ → α) → ℕ → List α → ℕ → α
  | f, _, [] => f
  | f, c, x :: xs => putCells (Function.update f c x) (c + 1) xs

/-- The values of successive cells. -/
def takeCells (f : ℕ → α) (c k : ℕ) : List α := (List.range k).map fun i => f (c + i)

@[simp] theorem length_takeCells (f : ℕ → α) (c k : ℕ) : (takeCells f c k).length = k := by
  simp [takeCells]

theorem takeCells_add (f : ℕ → α) (c j k : ℕ) :
    takeCells f c (j + k) = takeCells f c j ++ takeCells f (c + j) k := by
  simp only [takeCells, range_add, map_append, List.map_map]
  congr 1
  apply map_congr_left
  intro i _
  simp only [comp_apply, add_assoc]

theorem putCells_append (xs ys : List α) (f : ℕ → α) (c : ℕ) :
    putCells f c (xs ++ ys) = putCells (putCells f c xs) (c + xs.length) ys := by
  induction xs generalizing f c with
  | nil => rfl
  | cons x xs ih =>
    rw [cons_append, putCells, ih, length_cons]
    congr 1
    omega

theorem putCells_of_lt (h : j < c) : putCells f c xs j = f j := by
  induction xs generalizing f c with
  | nil => rfl
  | cons x xs ih =>
    rw [putCells, ih (by omega), update_of_ne (by omega)]

/-- What was stored is read back. -/
theorem takeCells_putCells (f : ℕ → α) (c : ℕ) (xs : List α) :
    takeCells (putCells f c xs) c xs.length = xs := by
  induction xs generalizing f c with
  | nil => rfl
  | cons x xs ih =>
    rw [length_cons, add_comm, takeCells_add, putCells, ih]
    simp only [takeCells, range_one, map_singleton, add_zero, singleton_append]
    rw [putCells_of_lt (lt_succ_self c), update_self]

/-- What is stored behind the first cells leaves them. -/
theorem takeCells_putCells_before (f : ℕ → α) (k : ℕ) (xs : List α) :
    takeCells (putCells f k xs) 0 (k + xs.length) = takeCells f 0 k ++ xs := by
  rw [takeCells_add, Nat.zero_add, takeCells_putCells]
  congr 1
  apply map_congr_left
  intro i hi
  exact putCells_of_lt (by simpa using hi)

/-- A range of cells before the end is stored to like positions. -/
theorem putCells_eq_putRing (hc : c = p % n) (h : c + xs.length ≤ n) :
    putCells f c xs = putRing n f p xs := by
  induction xs generalizing f c p with
  | nil => rfl
  | cons x xs ih =>
    have hlen : c + (xs.length + 1) ≤ n := h
    rw [putRing, ← hc]
    rcases xs with _ | ⟨y, ys⟩
    · rfl
    apply ih _ (by omega)
    -- not at the end yet, so the next position is in the next cell
    have hnext : c + 1 < n := by
      simp only [length_cons] at hlen
      omega
    rw [add_mod, ← hc, add_mod_mod, mod_eq_of_lt hnext]

theorem takeCells_eq_window (hc : c = p % n) (h : c + k ≤ n) :
    takeCells f c k = window f n p k := by
  apply map_congr_left
  intro i hi
  have hi := mem_range.mp hi
  congr 1
  rw [add_mod, ← hc, add_mod_mod, mod_eq_of_lt (by omega)]

end CS
