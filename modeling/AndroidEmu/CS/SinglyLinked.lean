import Mathlib.Tactic

/-!
# Singly linked lists

`Path` says which nodes one passes between two pointers, so a list that ends is a path to null. A
*slot* is the address of a pointer: the first one, or the next field of some node. A store to the
slot behind a prefix of the list replaces the rest of the list.
-/

namespace CS

variable {α : Type}

/-! ### Paths -/

/-- Following the next pointers from `first`, one passes these nodes and arrives at
`last`. -/
def Path (next : α → Option α) : Option α → List α → Option α → Prop
  | first, [], last => first = last
  | first, a :: as, last => first = some a ∧ Path next (next a) as last

namespace Path

variable {next next' : α → Option α} {first mid last : Option α} {xs ys : List α} {a : α}

theorem append_iff :
    Path next first (xs ++ ys) last ↔ ∃ mid, Path next first xs mid ∧ Path next mid ys last := by
  induction xs generalizing first with
  | nil => simp [Path]
  | cons a as ih =>
    simp only [List.cons_append, Path, ih]
    constructor
    · rintro ⟨hfirst, mid, has, hys⟩
      exact ⟨mid, ⟨hfirst, has⟩, hys⟩
    · rintro ⟨mid, ⟨hfirst, has⟩, hys⟩
      exact ⟨hfirst, mid, has, hys⟩

theorem append (hxs : Path next first xs mid) (hys : Path next mid ys last) :
    Path next first (xs ++ ys) last := append_iff.mpr ⟨mid, hxs, hys⟩

/-- Only the next pointers of the nodes passed matter. -/
theorem congr (h : Path next first xs last) (hnext : ∀ a ∈ xs, next' a = next a) :
    Path next' first xs last := by
  induction xs generalizing first with
  | nil => exact h
  | cons a as ih =>
    refine ⟨h.1, ?_⟩
    rw [hnext a List.mem_cons_self]
    exact ih h.2 fun b hb => hnext b (List.mem_cons_of_mem a hb)

/-- Numbered nodes, each linked to the next number. -/
theorem range' {next : ℕ → Option ℕ} {a k : ℕ}
    (h : ∀ i, a ≤ i → i < a + k → next i = some (i + 1)) :
    Path next (some a) (List.range' a k) (some (a + k)) := by
  induction k generalizing a with
  | zero => rfl
  | succ k ih =>
    refine ⟨rfl, ?_⟩
    rw [h a le_rfl (by omega), show a + (k + 1) = a + 1 + k by omega]
    exact ih fun i hi hlt => h i (by omega) (by omega)

end Path

/-- The nodes found by following the next pointers, if at most `n` of them lead to null. -/
def follow (next : α → Option α) : ℕ → Option α → Option (List α)
  | _, none => some []
  | 0, some _ => none
  | n + 1, some a => (follow next n (next a)).map (a :: ·)

variable {next : α → Option α}

/-- Following the pointers finds the path. -/
theorem Path.follow_eq {first : Option α} {xs : List α} {n : ℕ}
    (h : Path next first xs none) (hn : xs.length ≤ n) : follow next n first = some xs := by
  induction xs generalizing first n with
  | nil =>
    obtain rfl : first = none := h
    cases n <;> rfl
  | cons a as ih =>
    obtain ⟨m, rfl⟩ : ∃ m, n = m + 1 := ⟨n - 1, by simp at hn; omega⟩
    rw [h.1, follow, ih h.2 (by simpa using hn)]
    rfl

/-! ### Slots -/

/-- Where a pointer to a node is stored: in the first pointer or in the next field of a
node. -/
inductive Slot (α : Type)
  | head
  | after (a : α)
  deriving DecidableEq

namespace Slot

/-- The slot behind a list of nodes. -/
def behind (xs : List α) : Slot α :=
  match xs.getLast? with
  | none => .head
  | some a => .after a

@[simp] theorem behind_concat (xs : List α) (a : α) : behind (xs ++ [a]) = .after a := by
  rw [behind, List.getLast?_concat]

variable [DecidableEq α]

/-- The next fields after a store to the slot. -/
def storeNext (slot : Slot α) (next : α → Option α) (v : Option α) : α → Option α :=
  match slot with
  | .head => next
  | .after a => Function.update next a v

/-- The first pointer after a store to the slot. -/
def storeFirst (slot : Slot α) (first v : Option α) : Option α :=
  match slot with
  | .head => v
  | .after _ => first

end Slot

/-- A store to the slot behind a path leads the path elsewhere. -/
theorem Path.store [DecidableEq α] {first mid : Option α} {xs : List α}
    (h : Path next first xs mid) (hnodup : xs.Nodup) (v : Option α) :
    Path ((Slot.behind xs).storeNext next v) ((Slot.behind xs).storeFirst first v) xs v := by
  rcases List.eq_nil_or_concat' xs with rfl | ⟨ys, a, rfl⟩
  · rfl
  simp only [Slot.behind_concat, Slot.storeNext, Slot.storeFirst]
  obtain ⟨m, hys, hlast⟩ := append_iff.mp h
  obtain ⟨rfl, -⟩ := hlast
  refine (hys.congr fun b hb => Function.update_of_ne ?_ ..).append ⟨rfl, Function.update_self ..⟩
  rintro rfl
  exact (List.nodup_append.mp hnodup).2.2 b hb b List.mem_cons_self rfl

end CS
