import Mathlib.Tactic

/-!
# Walks in a tree of names

A place in a tree is the list of the names on the way to it from the root. A *walk* goes down to a
named child, up to the parent, or stays; above the root there is only the root. It amounts to a
number of levels that it climbs above its start, and then the names it goes down.
-/

namespace CS

open List

variable {ν : Type}

inductive Move (ν : Type)
  | stay
  | up
  | down (name : ν)
  deriving DecidableEq, Repr

def walk (s : List ν) : List (Move ν) → List ν
  | [] => s
  | .stay :: ms => walk s ms
  | .up :: ms => walk s.dropLast ms
  | .down name :: ms => walk (s ++ [name]) ms

theorem walk_append (s : List ν) (ms ns : List (Move ν)) :
    walk s (ms ++ ns) = walk (walk s ms) ns := by
  induction ms generalizing s with
  | nil => rfl
  | cons m ms ih =>
    cases m with
    | stay | up | down name => exact ih _

/-- Some levels up, and then down by names. -/
structure Net (ν : Type) where
  ups : ℕ
  names : List ν
  deriving DecidableEq, Repr

/-- Where it leads. -/
def Net.apply (r : Net ν) (s : List ν) : List ν := s.take (s.length - r.ups) ++ r.names

/-- One more move: going up takes back the last name, if there is one. -/
def Net.move (r : Net ν) : Move ν → Net ν
  | .stay => r
  | .up => if r.names.length = 0 then { r with ups := r.ups + 1 }
    else { r with names := r.names.dropLast }
  | .down name => { r with names := r.names ++ [name] }

/-- What a walk amounts to. -/
def net (ms : List (Move ν)) : Net ν := ms.foldl Net.move ⟨0, []⟩

theorem Net.apply_move (r : Net ν) (m : Move ν) (s : List ν) :
    (r.move m).apply s = walk (r.apply s) [m] := by
  cases m with
  | stay => rfl
  | down name => exact (append_assoc _ _ _).symm
  | up =>
    simp only [Net.move, walk]
    split_ifs with hnames
    · -- at the start or above it
      have hnil := length_eq_zero_iff.mp hnames
      simp only [Net.apply, hnil, append_nil]
      rw [dropLast_eq_take, length_take, take_take]
      congr 1
      omega
    · have hne : r.names ≠ [] := fun h => hnames (length_eq_zero_iff.mpr h)
      exact (dropLast_append_of_ne_nil hne).symm

/-- A walk leads where its net effect leads. -/
theorem walk_eq_apply_net (s : List ν) (ms : List (Move ν)) : walk s ms = (net ms).apply s := by
  induction ms using List.reverseRecOn with
  | nil =>
    change s = s.take s.length ++ []
    rw [take_length, append_nil]
  | append_singleton ms m ih =>
    have hnet : net (ms ++ [m]) = (net ms).move m := foldl_append
    rw [walk_append, ih, hnet, Net.apply_move]

/-- A walk ends at or below its start iff, after climbing, it comes down the same way. -/
theorem prefix_walk_iff (s : List ν) (ms : List (Move ν)) :
    s <+: walk s ms ↔ s.drop (s.length - (net ms).ups) <+: (net ms).names := by
  rw [walk_eq_apply_net]
  nth_rewrite 1 [← take_append_drop (s.length - (net ms).ups) s]
  exact prefix_append_right_inj _

/-- From the root there is nothing to climb. -/
theorem walk_nil (ms : List (Move ν)) : walk [] ms = (net ms).names := by
  rw [walk_eq_apply_net, Net.apply, take_nil, nil_append]

end CS
