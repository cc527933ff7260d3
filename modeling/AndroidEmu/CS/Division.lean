import Mathlib.Tactic

/-!
# Dividing a list into parts of bounded weight

A list is divided greedily: each part takes as many elements as its capacity holds. Where the
capacities are the weight of the list together, nothing is left if and only if the list has a border
at each sum of the first capacities.
-/

namespace CS

open List

variable {α : Type*} (w : α → ℕ)

def weight (xs : List α) : ℕ := (xs.map w).sum

@[simp] theorem weight_nil : weight w [] = 0 := rfl

@[simp] theorem weight_cons (x : α) (xs : List α) : weight w (x :: xs) = w x + weight w xs := by
  simp [weight]

@[simp] theorem weight_append (xs ys : List α) :
    weight w (xs ++ ys) = weight w xs + weight w ys := by
  simp [weight]

/-- `as` is the longest beginning of `xs` with a weight of at most `n`. -/
structure Takes (n : ℕ) (xs as bs : List α) : Prop where
  append_eq : as ++ bs = xs
  le : weight w as ≤ n
  full : ∀ b ∈ bs.head?, n < weight w as + w b

/-- The parts that the capacities hold, and the rest. -/
inductive Divides : List ℕ → List α → List (List α) → List α → Prop
  | nil (xs : List α) : Divides [] xs [] xs
  | cons {n : ℕ} {ns : List ℕ} {xs as bs rest : List α} {parts : List (List α)}
    (htake : Takes w n xs as bs) (hdivide : Divides ns bs parts rest) :
    Divides (n :: ns) xs (as :: parts) rest

/-- Some beginning of the list has this weight. -/
def IsBorder (xs : List α) (k : ℕ) : Prop := ∃ as bs, as ++ bs = xs ∧ weight w as = k

variable {w} {n k : ℕ} {ns : List ℕ} {xs as bs rest : List α} {parts : List (List α)}

/-- A part is filled if and only if there is a border at its capacity. -/
theorem Takes.weight_eq_iff (h : Takes w n xs as bs) : weight w as = n ↔ IsBorder w xs n := by
  constructor
  · exact fun hfull => ⟨as, bs, h.append_eq, hfull⟩
  · rintro ⟨as', bs', happend, rfl⟩
    rcases append_eq_append_iff.mp (h.append_eq.trans happend.symm) with
      ⟨t, rfl, rfl⟩ | ⟨t, rfl, rfl⟩
    · -- an element more would have been taken
      cases t with
      | nil => simp
      | cons b t =>
        have := h.full b rfl
        simp only [weight_append, weight_cons] at this
        omega
    · have := h.le
      rw [weight_append] at this ⊢
      omega

/-- Behind a part there are the borders of the rest. -/
theorem isBorder_append_iff : IsBorder w (as ++ bs) (weight w as + k) ↔ IsBorder w bs k := by
  constructor
  · rintro ⟨as', bs', happend, hweight⟩
    rcases append_eq_append_iff.mp happend with ⟨t, rfl, rfl⟩ | ⟨t, rfl, rfl⟩
    · rw [weight_append] at hweight
      exact ⟨[], bs, rfl, by rw [weight_nil]; omega⟩
    · rw [weight_append] at hweight
      exact ⟨t, bs', rfl, by omega⟩
  · rintro ⟨as', bs', rfl, rfl⟩
    exact ⟨as ++ as', bs', append_assoc _ _ _, weight_append w as as'⟩

section

variable (h : Divides w ns xs parts rest)

include h

/-- Capacities that are no more than the weight of a list leave nothing if and only if they are
its weight and it has a border at each sum of the first of them. -/
theorem Divides.rest_eq_nil_iff (hle : ns.sum ≤ weight w xs) (hpos : ∀ x, 0 < w x) :
    rest = [] ↔ weight w xs = ns.sum ∧ ∀ ms, ms <+: ns → IsBorder w xs ms.sum := by
  induction h with
  | nil xs =>
    constructor
    · rintro rfl
      refine ⟨rfl, fun ms hms => ?_⟩
      obtain rfl := prefix_nil.mp hms
      exact ⟨[], [], rfl, rfl⟩
    · rintro ⟨hweight, -⟩
      cases xs with
      | nil => rfl
      | cons x xs =>
        have := hpos x
        simp at hweight
        omega
  | @cons n ns xs as bs rest parts htake hdivide ih =>
    obtain rfl := htake.append_eq
    have hn := htake.le
    rw [sum_cons, weight_append] at hle
    rw [ih (by omega), weight_append, sum_cons]
    constructor
    · rintro ⟨hweight, hborders⟩
      have hfull : weight w as = n := by omega
      refine ⟨by omega, fun ms hms => ?_⟩
      cases ms with
      | nil => exact ⟨[], as ++ bs, rfl, rfl⟩
      | cons m ms =>
        obtain ⟨rfl, hms'⟩ := cons_prefix_cons.mp hms
        rw [← hfull]
        exact isBorder_append_iff.mpr (hborders ms hms')
    · rintro ⟨hweight, hborders⟩
      have hfull : weight w as = n :=
        htake.weight_eq_iff.mpr (by simpa using hborders [n] (by simp))
      refine ⟨by omega, fun ms hms => ?_⟩
      have := hborders (n :: ms) (cons_prefix_cons.mpr ⟨rfl, hms⟩)
      rw [← hfull] at this
      exact isBorder_append_iff.mp this

/-- The parts and the rest are the list. -/
theorem Divides.flatten_append : parts.flatten ++ rest = xs := by
  induction h with
  | nil xs => rfl
  | cons htake hdivide ih => rw [flatten_cons, append_assoc, ih, htake.append_eq]

theorem Divides.weight_le (hns : ∀ m ∈ ns, m ≤ n) : ∀ as ∈ parts, weight w as ≤ n := by
  induction h with
  | nil xs => simp
  | cons htake hdivide ih =>
    obtain ⟨hn, hns⟩ := forall_mem_cons.mp hns
    exact forall_mem_cons.mpr ⟨htake.le.trans hn, ih hns⟩

theorem Divides.length_eq : parts.length = ns.length := by
  induction h with
  | nil xs => rfl
  | cons htake hdivide ih => rw [length_cons, length_cons, ih]

end

end CS
