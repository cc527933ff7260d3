import AndroidEmu.CS.Checked

/-!
# Objects in dynamic memory

A store maps addresses to the objects that live there. Addresses are never used twice, so a stale
pointer is always noticed.
-/

namespace CS

/-- Objects by address. No address from `bound` on was ever used. -/
structure Store (α : Type) where
  cell : ℕ → Option α
  bound : ℕ
  cell_eq_none : ∀ r, bound ≤ r → cell r = none

namespace Store

variable {α : Type} {s : Store α} {r q : ℕ} {a : α}

def empty : Store α where
  cell _ := none
  bound := 0
  cell_eq_none _ _ := rfl

/-- Place an object at an address, or remove it. -/
def put (s : Store α) (r : ℕ) (v : Option α) : Store α where
  cell := Function.update s.cell r v
  bound := max s.bound (r + 1)
  cell_eq_none q hq := by
    rw [Function.update_of_ne (by omega), s.cell_eq_none q (by omega)]

theorem put_cell (s : Store α) (r q : ℕ) (v : Option α) :
    (s.put r v).cell q = if q = r then v else s.cell q := Function.update_apply ..

@[simp] theorem put_cell_self (s : Store α) (r : ℕ) (v : Option α) : (s.put r v).cell r = v :=
  Function.update_self ..

theorem put_cell_of_ne {v : Option α} (h : q ≠ r) : (s.put r v).cell q = s.cell q :=
  Function.update_of_ne h ..

/-- The second of two stores to an address remains. -/
theorem put_put (s : Store α) (r : ℕ) (u v : Option α) : (s.put r u).put r v = s.put r v := by
  simp only [put, mk.injEq]
  exact ⟨Function.update_idem .., by omega⟩

theorem lt_bound (h : s.cell r = some a) : r < s.bound := by
  by_contra hr
  rw [s.cell_eq_none r (by omega)] at h
  simp at h

theorem put_bound {v : Option α} (h : s.cell r = some a) : (s.put r v).bound = s.bound :=
  max_eq_left (lt_bound h)

/-! ### Accesses -/

def load (s : Store α) (r : ℕ) : Checked α :=
  match s.cell r with
  | some a => .ok a
  | none => .error .useAfterFree

def modify (s : Store α) (r : ℕ) (f : α → α) : Checked (Store α) :=
  match s.cell r with
  | some a => .ok (s.put r (some (f a)))
  | none => .error .useAfterFree

def free (s : Store α) (r : ℕ) : Checked (Store α) :=
  match s.cell r with
  | some _ => .ok (s.put r none)
  | none => .error .useAfterFree

/-- Place an object at an address that was never used. -/
def alloc (s : Store α) (a : α) : Store α × ℕ :=
  (s.put s.bound (some a), s.bound)

theorem load_of (h : s.cell r = some a) : s.load r = .ok a := by
  rw [load, h]

theorem modify_of (h : s.cell r = some a) (f : α → α) :
    s.modify r f = .ok (s.put r (some (f a))) := by
  rw [modify, h]

theorem free_of (h : s.cell r = some a) : s.free r = .ok (s.put r none) := by
  rw [free, h]

/-- The address of a new object is not in use. -/
theorem cell_bound (s : Store α) : s.cell s.bound = none :=
  s.cell_eq_none s.bound le_rfl

end Store

end CS
