import Mathlib.Data.Set.Lattice
import Mathlib.Order.CompletePartialOrder

/-!
# Allotments of a space

A space is allotted to holders of disjoint sets; what is free is held by nobody. A holder may
release a part of what it holds, take a part of what is free, be given a new part by which the space
grows, or lose a part for good.
-/

namespace Math

open Function Set

variable {ι α : Type*}

/-- The sets of the holders and the free set lie apart in the space. -/
structure Allotment (held : ι → Set α) (free space : Set α) : Prop where
  held_subset : ∀ i, held i ⊆ space
  free_subset : free ⊆ space
  apart : ∀ i j, i ≠ j → Disjoint (held i) (held j)
  held_free : ∀ i, Disjoint (held i) free

namespace Allotment

/-- Everything in the space is held or free. -/
def Full (held : ι → Set α) (free space : Set α) : Prop :=
  ∀ x ∈ space, x ∈ free ∨ ∃ i, x ∈ held i

variable {held held' : ι → Set α} {free space part : Set α} {i : ι}

/-- Nobody holds anything. -/
theorem init (space : Set α) : Allotment (fun _ : ι => ∅) ∅ space where
  held_subset _ := empty_subset space
  free_subset := empty_subset space
  apart _ _ _ := disjoint_bot_left
  held_free _ := disjoint_bot_left

/-- Holders lose what they no longer hold. -/
theorem lose (h : Allotment held free space) (hsub : ∀ i, held' i ⊆ held i) :
    Allotment held' free space where
  held_subset i := (hsub i).trans (h.held_subset i)
  free_subset := h.free_subset
  apart i j hij := (h.apart i j hij).mono (hsub i) (hsub j)
  held_free i := (h.held_free i).mono_left (hsub i)

/-- Less is free. -/
theorem mono_free (h : Allotment held free space) {free' : Set α} (hsub : free' ⊆ free) :
    Allotment held free' space where
  held_subset := h.held_subset
  free_subset := hsub.trans h.free_subset
  apart := h.apart
  held_free i := (h.held_free i).mono_right hsub

/-- What is free when nobody loses anything. -/
theorem Full.free_eq (h : Allotment held free space) (hfull : Full held free space) :
    free = space \ ⋃ i, held i := by
  ext x
  constructor
  · intro hx
    refine ⟨h.free_subset hx, fun hheld => ?_⟩
    obtain ⟨i, hi⟩ := mem_iUnion.mp hheld
    exact disjoint_left.mp (h.held_free i) hi hx
  · rintro ⟨hx, hnot⟩
    refine (hfull x hx).resolve_right fun hheld => ?_
    exact hnot (mem_iUnion.mpr hheld)

variable [DecidableEq ι]

section

variable (h : Allotment held free space)

include h

/-- A holder releases a part of what it holds. -/
theorem release (hpart : part ⊆ held i) :
    Allotment (update held i (held i \ part)) (free ∪ part) space where
  held_subset j := by
    by_cases hj : j = i
    · subst hj
      rw [update_self]
      exact sdiff_subset.trans (h.held_subset j)
    · rw [update_of_ne hj]
      exact h.held_subset j
  free_subset := union_subset h.free_subset (hpart.trans (h.held_subset i))
  apart := by
    refine (h.lose fun j => ?_).apart
    by_cases hj : j = i
    · subst hj
      rw [update_self]
      exact sdiff_subset
    · rw [update_of_ne hj]
  held_free j := by
    rw [disjoint_union_right]
    by_cases hj : j = i
    · subst hj
      rw [update_self]
      exact ⟨(h.held_free j).mono_left sdiff_subset, disjoint_sdiff_left⟩
    · rw [update_of_ne hj]
      exact ⟨h.held_free j, (h.apart j i hj).mono_right hpart⟩

/-- A holder of nothing takes what nobody holds and what is not free any more. -/
theorem give (hnone : held i = ∅) (hsub : part ⊆ space) (hheld : ∀ j, Disjoint (held j) part)
    (hfree : Disjoint part free) : Allotment (update held i part) free space where
  held_subset j := by
    by_cases hj : j = i
    · subst hj
      rwa [update_self]
    · rw [update_of_ne hj]
      exact h.held_subset j
  free_subset := h.free_subset
  apart j k hjk := by
    by_cases hj : j = i
    · subst hj
      rw [update_self, update_of_ne hjk.symm]
      exact (hheld k).symm
    rw [update_of_ne hj]
    by_cases hk : k = i
    · subst hk
      rw [update_self]
      exact hheld j
    · rw [update_of_ne hk]
      exact h.apart j k hjk
  held_free j := by
    by_cases hj : j = i
    · subst hj
      rwa [update_self]
    · rw [update_of_ne hj]
      exact h.held_free j

/-- A holder of nothing takes a part of what is free. -/
theorem take (hnone : held i = ∅) (hpart : part ⊆ free) :
    Allotment (update held i part) (free \ part) space :=
  (h.mono_free sdiff_subset).give hnone (hpart.trans h.free_subset)
    (fun j => (h.held_free j).mono_right hpart) disjoint_sdiff_right

/-- The space grows by what a holder of nothing is given. -/
theorem grow (hnone : held i = ∅) (hnew : Disjoint part space) :
    Allotment (update held i part) free (space ∪ part) := by
  have hgrown : Allotment held free (space ∪ part) :=
    { held_subset := fun j => (h.held_subset j).trans subset_union_left
      free_subset := h.free_subset.trans subset_union_left
      apart := h.apart
      held_free := h.held_free }
  exact hgrown.give hnone subset_union_right
    (fun j => (hnew.mono_right (h.held_subset j)).symm) (hnew.mono_right h.free_subset)

end

namespace Full

theorem release (h : Full held free space) (part : Set α) :
    Full (update held i (held i \ part)) (free ∪ part) space := by
  intro x hx
  rcases h x hx with hfree | ⟨j, hj⟩
  · exact .inl (.inl hfree)
  by_cases hpart : x ∈ part
  · exact .inl (.inr hpart)
  refine .inr ⟨j, ?_⟩
  by_cases hji : j = i
  · subst hji
    rw [update_self]
    exact ⟨hj, hpart⟩
  · rwa [update_of_ne hji]

/-- Nothing is lost when a holder of nothing gets something. -/
theorem give (h : ∀ x ∈ space, x ∈ free ∨ x ∈ part ∨ ∃ i, x ∈ held i) (hnone : held i = ∅) :
    Full (update held i part) free space := by
  intro x hx
  rcases h x hx with hfree | hpart | ⟨j, hj⟩
  · exact .inl hfree
  · exact .inr ⟨i, by rwa [update_self]⟩
  · refine .inr ⟨j, ?_⟩
    have hji : j ≠ i := by
      rintro rfl
      rw [hnone] at hj
      exact hj
    rwa [update_of_ne hji]

theorem take (h : Full held free space) (hnone : held i = ∅) (part : Set α) :
    Full (update held i part) (free \ part) space := by
  refine give (fun x hx => ?_) hnone
  rcases h x hx with hfree | hheld
  · by_cases hpart : x ∈ part
    · exact .inr (.inl hpart)
    · exact .inl ⟨hfree, hpart⟩
  · exact .inr (.inr hheld)

theorem grow (h : Full held free space) (hnone : held i = ∅) (part : Set α) :
    Full (update held i part) free (space ∪ part) := by
  refine give (fun x hx => ?_) hnone
  rcases hx with hx | hpart
  · exact (h x hx).imp_right .inr
  · exact .inr (.inl hpart)

end Full

end Allotment

end Math
