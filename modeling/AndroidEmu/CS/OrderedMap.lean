import Mathlib.Tactic

/-!
# Ordered maps

An ordered map is the list of its entries, by increasing keys. An entry stands for the iterator at
its key. The operations are described around a split of the map at a key.
-/

namespace CS.OrderedMap

open List

variable {κ ν : Type} [LinearOrder κ] {m xs ys : List (κ × ν)} {k : κ} {v : ν}

abbrev Sorted (m : List (κ × ν)) : Prop := m.Pairwise fun p q => p.1 < q.1

/-- Insert an entry, unless the key is there. -/
def insert (m : List (κ × ν)) (k : κ) (v : ν) : Option (List (κ × ν)) :=
  match m with
  | [] => some [(k, v)]
  | p :: m =>
    if k < p.1 then some ((k, v) :: p :: m)
    else if k = p.1 then none
    else (insert m k v).map (p :: ·)

def erase (m : List (κ × ν)) (k : κ) : List (κ × ν) := m.filter fun p => p.1 ≠ k

def before (m : List (κ × ν)) (k : κ) : Option (κ × ν) := (m.filter fun p => p.1 < k).getLast?

def after (m : List (κ × ν)) (k : κ) : Option (κ × ν) := m.find? fun p => k < p.1

/-- The keys of `xs` are below `k`, those of `ys` above it. -/
structure Split (xs : List (κ × ν)) (k : κ) (ys : List (κ × ν)) : Prop where
  below : ∀ p ∈ xs, p.1 < k
  above : ∀ p ∈ ys, k < p.1

/-- A sorted map splits at a key that is not there. -/
theorem exists_split (h : Sorted m) (hk : ∀ p ∈ m, p.1 ≠ k) :
    ∃ xs ys, m = xs ++ ys ∧ Split xs k ys := by
  induction m with
  | nil => exact ⟨[], [], rfl, by simp, by simp⟩
  | cons p m ih =>
    obtain ⟨hp, hm⟩ := pairwise_cons.mp h
    rcases lt_or_gt_of_ne (hk p mem_cons_self) with hlt | hgt
    · obtain ⟨xs, ys, rfl, hbelow, habove⟩ := ih hm fun q hq => hk q (mem_cons_of_mem p hq)
      exact ⟨p :: xs, ys, rfl, forall_mem_cons.mpr ⟨hlt, hbelow⟩, habove⟩
    · refine ⟨[], p :: m, rfl, by simp, forall_mem_cons.mpr ⟨hgt, fun q hq => ?_⟩⟩
      exact hgt.trans (hp q hq)

theorem insert_of_split (h : Split xs k ys) (v : ν) :
    insert (xs ++ ys) k v = some (xs ++ (k, v) :: ys) := by
  obtain ⟨hbelow, habove⟩ := h
  induction xs with
  | nil =>
    cases ys with
    | nil => rfl
    | cons p ys => exact if_pos (habove p mem_cons_self)
  | cons p xs ih =>
    have hp := hbelow p mem_cons_self
    rw [cons_append, insert, if_neg hp.not_gt, if_neg hp.ne',
      ih fun q hq => hbelow q (mem_cons_of_mem p hq)]
    rfl

theorem erase_of_split (h : Split xs k ys) (v : ν) : erase (xs ++ (k, v) :: ys) k = xs ++ ys := by
  have hxs : xs.filter (fun p => p.1 ≠ k) = xs :=
    filter_eq_self.mpr fun p hp => by simpa using (h.below p hp).ne
  have hys : ys.filter (fun p => p.1 ≠ k) = ys :=
    filter_eq_self.mpr fun p hp => by simpa using (h.above p hp).ne'
  rw [erase, filter_append, filter_cons_of_neg (by simp), hxs, hys]

theorem before_of_split (h : Split xs k ys) (v : ν) :
    before (xs ++ (k, v) :: ys) k = xs.getLast? := by
  have hxs : xs.filter (fun p => p.1 < k) = xs :=
    filter_eq_self.mpr fun p hp => by simpa using h.below p hp
  have hys : ys.filter (fun p => p.1 < k) = [] :=
    filter_eq_nil_iff.mpr fun p hp => by simpa using (h.above p hp).le
  rw [before, filter_append, filter_cons_of_neg (by simp), hxs, hys, append_nil]

theorem after_of_split (h : Split xs k ys) (v : ν) : after (xs ++ (k, v) :: ys) k = ys.head? := by
  have hxs : xs.find? (fun p => k < p.1) = none :=
    find?_eq_none.mpr fun p hp => by simpa using (h.below p hp).le
  rw [after, find?_append, hxs, Option.none_or, find?_cons_of_neg (by simp)]
  cases ys with
  | nil => rfl
  | cons p ys => exact find?_cons_of_pos (by simpa using h.above p mem_cons_self)

/-! ### By entries -/

def get (m : List (κ × ν)) (k : κ) : Option ν := (m.find? fun p => p.1 = k).map Prod.snd

/-- Insert an entry, or replace the value at its key. -/
def set (m : List (κ × ν)) (k : κ) (v : ν) : List (κ × ν) :=
  match m with
  | [] => [(k, v)]
  | p :: m =>
    if k < p.1 then (k, v) :: p :: m
    else if k = p.1 then (k, v) :: m
    else p :: set m k v

def lowerBound (m : List (κ × ν)) (k : κ) : Option (κ × ν) := m.find? fun p => k ≤ p.1

variable {p q : κ × ν}

section

variable (h : Sorted m)

include h

/-- The key determines the entry. -/
theorem Sorted.eq_of_key (hp : p ∈ m) (hq : q ∈ m) (hk : p.1 = q.1) : p = q := by
  by_contra hne
  have hkeys : m.Pairwise fun p q => p.1 ≠ q.1 := h.imp fun hlt => hlt.ne
  have hsymm : Std.Symm fun p q : κ × ν => p.1 ≠ q.1 := ⟨fun _ _ => Ne.symm⟩
  exact hkeys.forall hp hq hne hk

theorem Sorted.nodup : m.Nodup :=
  h.imp fun {p q} hlt (heq : p = q) => absurd hlt (heq ▸ lt_irrefl p.1)

/-- A sorted map is determined by its entries. -/
theorem Sorted.ext {m' : List (κ × ν)} (h' : Sorted m') (hmem : ∀ p, p ∈ m ↔ p ∈ m') : m = m' := by
  have hperm : m.Perm m' := (perm_ext_iff_of_nodup h.nodup h'.nodup).mpr hmem
  exact hperm.eq_of_pairwise (fun p q _ _ hpq hqp => absurd hpq hqp.not_gt) h h'

theorem get_eq_some : get m k = some v ↔ (k, v) ∈ m := by
  rw [get, Option.map_eq_some_iff]
  constructor
  · rintro ⟨⟨k', v'⟩, hfind, rfl⟩
    obtain rfl : k' = k := by simpa using find?_some hfind
    exact mem_of_find?_eq_some hfind
  · intro hmem
    cases hfind : m.find? fun p => p.1 = k with
    | none => simpa using find?_eq_none.mp hfind (k, v) hmem
    | some p =>
      have hkey : p.1 = k := by simpa using find?_some hfind
      rw [h.eq_of_key (mem_of_find?_eq_some hfind) hmem hkey]
      exact ⟨(k, v), rfl, rfl⟩

omit h in
theorem get_eq_none : get m k = none ↔ ∀ p ∈ m, p.1 ≠ k := by
  simp [get]

omit h in
theorem mem_erase : q ∈ erase m k ↔ q ∈ m ∧ q.1 ≠ k := by
  simp [erase]

theorem Sorted.erase (k : κ) : Sorted (erase m k) := h.filter _

theorem mem_set : q ∈ set m k v ↔ q = (k, v) ∨ q ∈ m ∧ q.1 ≠ k := by
  induction m with
  | nil => simp [set]
  | cons p m ih =>
    obtain ⟨hp, hm⟩ := pairwise_cons.mp h
    rw [set]
    split_ifs with hlt heq
    · -- all keys are above `k`
      have hne : ∀ q ∈ p :: m, q.1 ≠ k :=
        forall_mem_cons.mpr ⟨hlt.ne', fun q hq => (hlt.trans (hp q hq)).ne'⟩
      rw [mem_cons]
      exact or_congr_right ⟨fun hq => ⟨hq, hne q hq⟩, And.left⟩
    · have hne : ∀ q ∈ m, q.1 ≠ k := fun q hq => heq ▸ (hp q hq).ne'
      rw [mem_cons, mem_cons]
      refine or_congr_right ⟨fun hq => ⟨.inr hq, hne q hq⟩, ?_⟩
      rintro ⟨rfl | hq, hk⟩
      · exact absurd heq.symm hk
      · exact hq
    · rw [mem_cons, ih hm, mem_cons]
      constructor
      · rintro (rfl | rfl | ⟨hq, hk⟩)
        · exact .inr ⟨.inl rfl, fun hk => heq hk.symm⟩
        · exact .inl rfl
        · exact .inr ⟨.inr hq, hk⟩
      · rintro (rfl | ⟨rfl | hq, hk⟩)
        · exact .inr (.inl rfl)
        · exact .inl rfl
        · exact .inr (.inr ⟨hq, hk⟩)

theorem Sorted.set (k : κ) (v : ν) : Sorted (set m k v) := by
  induction m with
  | nil => exact pairwise_singleton _ _
  | cons p m ih =>
    obtain ⟨hp, hm⟩ := pairwise_cons.mp h
    rw [OrderedMap.set]
    split_ifs with hlt heq
    · refine pairwise_cons.mpr ⟨?_, h⟩
      exact forall_mem_cons.mpr ⟨hlt, fun q hq => hlt.trans (hp q hq)⟩
    · exact pairwise_cons.mpr ⟨fun q hq => heq ▸ hp q hq, hm⟩
    · refine pairwise_cons.mpr ⟨fun q hq => ?_, ih hm⟩
      rcases (mem_set hm).mp hq with rfl | ⟨hq, -⟩
      · exact lt_of_le_of_ne (not_lt.mp hlt) (Ne.symm heq)
      · exact hp q hq

/-- The map is an entry and the others. -/
theorem Sorted.perm_cons_erase (hmem : (k, v) ∈ m) : m.Perm ((k, v) :: OrderedMap.erase m k) := by
  have hnot : (k, v) ∉ OrderedMap.erase m k := fun hmem => (mem_erase.mp hmem).2 rfl
  refine (perm_ext_iff_of_nodup h.nodup (nodup_cons.mpr ⟨hnot, (h.erase k).nodup⟩)).mpr ?_
  intro q
  rw [mem_cons, mem_erase]
  constructor
  · intro hq
    by_cases hk : q.1 = k
    · exact .inl (h.eq_of_key hq hmem hk)
    · exact .inr ⟨hq, hk⟩
  · rintro (rfl | ⟨hq, -⟩)
    · exact hmem
    · exact hq

/-- The map with an entry set is that entry and the others. -/
theorem Sorted.set_perm (k : κ) (v : ν) :
    (OrderedMap.set m k v).Perm ((k, v) :: OrderedMap.erase m k) := by
  have hnot : (k, v) ∉ OrderedMap.erase m k := fun hmem => (mem_erase.mp hmem).2 rfl
  refine (perm_ext_iff_of_nodup (h.set k v).nodup (nodup_cons.mpr ⟨hnot, (h.erase k).nodup⟩)).mpr ?_
  intro q
  rw [mem_set h, mem_cons, mem_erase]

end

theorem erase_of_get_eq_none (h : get m k = none) : OrderedMap.erase m k = m :=
  filter_eq_self.mpr fun p hp => by simpa using get_eq_none.mp h p hp

theorem set_ne_nil : set m k v ≠ [] := by
  cases m with
  | nil => simp [set]
  | cons p m =>
    rw [set]
    split_ifs <;> simp

/-- An entry with the greatest key goes to the end. -/
theorem set_of_forall_lt (h : ∀ p ∈ m, p.1 < k) (v : ν) : set m k v = m ++ [(k, v)] := by
  induction m with
  | nil => rfl
  | cons p m ih =>
    have hp := h p mem_cons_self
    rw [set, if_neg hp.not_gt, if_neg hp.ne', ih fun q hq => h q (mem_cons_of_mem p hq)]
    rfl

/-- The value at the greatest key is replaced. -/
theorem set_append_singleton (h : ∀ p ∈ m, p.1 < k) (v w : ν) :
    set (m ++ [(k, v)]) k w = m ++ [(k, w)] := by
  induction m with
  | nil => simp [set]
  | cons p m ih =>
    have hp := h p mem_cons_self
    rw [cons_append, set, if_neg hp.not_gt, if_neg hp.ne',
      ih fun q hq => h q (mem_cons_of_mem p hq)]
    rfl

theorem get_append_singleton (h : ∀ p ∈ m, p.1 < k) (v : ν) : get (m ++ [(k, v)]) k = some v := by
  have hnone : m.find? (fun p => p.1 = k) = none :=
    find?_eq_none.mpr fun p hp => by simpa using (h p hp).ne
  rw [get, find?_append, hnone]
  simp

/-- The first entry from a key on is the one with the least key. -/
theorem find?_eq_some_of_sorted (h : Sorted m) {P : κ → Prop} [DecidablePred P] :
    m.find? (fun p => P p.1) = some p ↔ p ∈ m ∧ P p.1 ∧ ∀ q ∈ m, P q.1 → p.1 ≤ q.1 := by
  induction m with
  | nil => simp
  | cons x m ih =>
    obtain ⟨hx, hm⟩ := pairwise_cons.mp h
    by_cases hP : P x.1
    · rw [find?_cons_of_pos (by simpa using hP)]
      constructor
      · rintro ⟨⟩
        exact ⟨mem_cons_self, hP, forall_mem_cons.mpr ⟨fun _ => le_rfl, fun q hq _ => (hx q hq).le⟩⟩
      · rintro ⟨hp, -, hleast⟩
        rcases mem_cons.mp hp with rfl | hp
        · rfl
        · exact absurd (hx p hp) (hleast x mem_cons_self hP).not_gt
    · rw [find?_cons_of_neg (by simpa using hP), ih hm]
      constructor
      · rintro ⟨hp, hPp, hleast⟩
        exact ⟨mem_cons_of_mem x hp, hPp, forall_mem_cons.mpr ⟨fun hPx => absurd hPx hP, hleast⟩⟩
      · rintro ⟨hp, hPp, hleast⟩
        rcases mem_cons.mp hp with rfl | hp
        · exact absurd hPp hP
        · exact ⟨hp, hPp, fun q hq => hleast q (mem_cons_of_mem x hq)⟩

theorem lowerBound_eq_some (h : Sorted m) :
    lowerBound m k = some p ↔ p ∈ m ∧ k ≤ p.1 ∧ ∀ q ∈ m, k ≤ q.1 → p.1 ≤ q.1 :=
  find?_eq_some_of_sorted (P := (k ≤ ·)) h

theorem lowerBound_eq_none : lowerBound m k = none ↔ ∀ q ∈ m, q.1 < k := by
  simp [lowerBound]

theorem after_eq_some (h : Sorted m) :
    after m k = some p ↔ p ∈ m ∧ k < p.1 ∧ ∀ q ∈ m, k < q.1 → p.1 ≤ q.1 :=
  find?_eq_some_of_sorted (P := (k < ·)) h

theorem after_eq_none : after m k = none ↔ ∀ q ∈ m, q.1 ≤ k := by
  simp [after]

theorem before_eq_some (h : Sorted m) (hbefore : before m k = some p) :
    p ∈ m ∧ p.1 < k ∧ ∀ q ∈ m, q.1 < k → q.1 ≤ p.1 := by
  obtain ⟨xs, hxs⟩ := getLast?_eq_some_iff.mp hbefore
  have hp : p ∈ m.filter fun p => p.1 < k := by simp [hxs]
  obtain ⟨hmem, hlt⟩ := mem_filter.mp hp
  refine ⟨hmem, by simpa using hlt, fun q hq hqk => ?_⟩
  have hq' : q ∈ xs ++ [p] := hxs ▸ mem_filter.mpr ⟨hq, by simpa using hqk⟩
  have hsorted : Sorted (xs ++ [p]) := hxs ▸ h.filter _
  rcases mem_append.mp hq' with hq' | hq'
  · exact ((pairwise_append.mp hsorted).2.2 q hq' p (by simp)).le
  · rw [mem_singleton.mp hq']

theorem before_eq_none : before m k = none ↔ ∀ q ∈ m, k ≤ q.1 := by
  simp [before]

end CS.OrderedMap
