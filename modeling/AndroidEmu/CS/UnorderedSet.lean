import Mathlib.Tactic

/-!
# Hash sets

The order in which a loop meets the elements of a `std::unordered_set` is not specified, so a
program that loops over one has a permutation of its elements as a parameter.
-/

namespace CS

structure UnorderedSet (α : Type) where
  elems : List α
  nodup : elems.Nodup

namespace UnorderedSet

variable {α : Type} {s : UnorderedSet α} {a b : α}

instance : Membership α (UnorderedSet α) := ⟨fun s a => a ∈ s.elems⟩

instance [DecidableEq α] (a : α) (s : UnorderedSet α) : Decidable (a ∈ s) :=
  inferInstanceAs (Decidable (a ∈ s.elems))

theorem mem_def : a ∈ s ↔ a ∈ s.elems := Iff.rfl

def empty : UnorderedSet α := ⟨[], List.nodup_nil⟩

@[simp] theorem not_mem_empty (a : α) : a ∉ (empty : UnorderedSet α) := List.not_mem_nil

variable [DecidableEq α]

/-- Add an element, if it is not there yet. -/
def insert (s : UnorderedSet α) (a : α) : UnorderedSet α := ⟨s.elems.insert a, s.nodup.insert⟩

/-- Take an element out, if it is there. -/
def erase (s : UnorderedSet α) (a : α) : UnorderedSet α := ⟨s.elems.erase a, s.nodup.erase a⟩

@[simp] theorem mem_insert : b ∈ s.insert a ↔ b = a ∨ b ∈ s := List.mem_insert_iff

@[simp] theorem mem_erase : b ∈ s.erase a ↔ b ≠ a ∧ b ∈ s := s.nodup.mem_erase_iff

end UnorderedSet

end CS
