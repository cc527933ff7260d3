import Mathlib.Tactic
import Mathlib.Order.Interval.Set.Basic

/-!
# Gaps in a set of integers

A *gap* of a set of integers is an interval of it that cannot be extended. A collection of pairs of
a start and a size *tracks* a set when it lists exactly its gaps. It is *within* the set when the
pairs are disjoint intervals of the set.
-/

namespace Math.Gaps

/-- An interval of the set that cannot be extended. -/
structure IsGap (F : Set ℤ) (a b : ℤ) : Prop where
  lt : a < b
  subset : Set.Ico a b ⊆ F
  before : a - 1 ∉ F
  after : b ∉ F

/-- Gaps that share an integer are equal. -/
theorem IsGap.eq_of_mem {F : Set ℤ} {a b c d x : ℤ} (h : IsGap F a b) (h' : IsGap F c d)
    (hx : x ∈ Set.Ico a b) (hx' : x ∈ Set.Ico c d) : a = c ∧ b = d := by
  obtain ⟨hax, hxb⟩ := hx
  obtain ⟨hcx, hxd⟩ := hx'
  refine ⟨?_, ?_⟩
  · rcases lt_trichotomy a c with hac | hac | hac
    · exact absurd (h.subset ⟨by omega, by omega⟩) h'.before
    · exact hac
    · exact absurd (h'.subset ⟨by omega, by omega⟩) h.before
  · rcases lt_trichotomy b d with hbd | hbd | hbd
    · exact absurd (h'.subset ⟨by omega, hbd⟩) h.after
    · exact hbd
    · exact absurd (h.subset ⟨by omega, hbd⟩) h'.after

/-- The pairs are disjoint intervals of the set, and their starts are in the set. -/
structure Within (G : Set (ℤ × ℤ)) (F : Set ℤ) : Prop where
  start_mem : ∀ p ∈ G, p.1 ∈ F
  subset : ∀ p ∈ G, Set.Ico p.1 (p.1 + p.2) ⊆ F
  eq_of_start : ∀ p ∈ G, ∀ q ∈ G, p.1 = q.1 → p = q
  apart : ∀ p ∈ G, ∀ q ∈ G, p.1 < q.1 → p.1 + p.2 ≤ q.1

/-- The pairs are the gaps of the set. -/
structure Tracks (G : Set (ℤ × ℤ)) (F : Set ℤ) : Prop extends Within G F where
  pos : ∀ p ∈ G, 0 < p.2
  covers : ∀ x ∈ F, ∃ p ∈ G, x ∈ Set.Ico p.1 (p.1 + p.2)
  separated : ∀ p ∈ G, ∀ q ∈ G, p.1 < q.1 → p.1 + p.2 < q.1

def remove (G : Set (ℤ × ℤ)) (a : ℤ) : Set (ℤ × ℤ) := {q | q ∈ G ∧ q.1 ≠ a}

def put (G : Set (ℤ × ℤ)) (a k : ℤ) : Set (ℤ × ℤ) := {q | q = (a, k) ∨ q ∈ G ∧ q.1 ≠ a}

variable {G : Set (ℤ × ℤ)} {F : Set ℤ} {a k s n w : ℤ} {p q : ℤ × ℤ}

@[simp] theorem mem_remove : q ∈ remove G a ↔ q ∈ G ∧ q.1 ≠ a := Iff.rfl

@[simp] theorem mem_put : q ∈ put G a k ↔ q = (a, k) ∨ q ∈ G ∧ q.1 ≠ a := Iff.rfl

/-- The integers that are added to the set. -/
def addRange (F : Set ℤ) (s n : ℤ) : Set ℤ := F ∪ Set.Ico s (s + n)

/-- The integers that are left in the set. -/
def takeRange (F : Set ℤ) (s n : ℤ) : Set ℤ := F \ Set.Ico s (s + n)

/-- No integer of the range is in the set. -/
def Disjoint (F : Set ℤ) (s n : ℤ) : Prop := ∀ x ∈ Set.Ico s (s + n), x ∉ F

/-! ### Pairs within a set -/

namespace Within

section

variable (h : Within G F)

include h

theorem remove (a : ℤ) : Within (remove G a) F where
  start_mem q hq := h.start_mem q hq.1
  subset q hq := h.subset q hq.1
  eq_of_start q hq r hr := h.eq_of_start q hq.1 r hr.1
  apart q hq r hr := h.apart q hq.1 r hr.1

theorem mono {F' : Set ℤ} (hF : F ⊆ F') : Within G F' where
  start_mem q hq := hF (h.start_mem q hq)
  subset q hq := (h.subset q hq).trans hF
  eq_of_start := h.eq_of_start
  apart := h.apart

omit h in
/-- A pair between the others. -/
theorem put (h : Within (Gaps.remove G a) F) (ha : a ∈ F) (hsub : Set.Ico a (a + k) ⊆ F)
    (hleft : ∀ q ∈ G, q.1 < a → q.1 + q.2 ≤ a) (hright : ∀ q ∈ G, a < q.1 → a + k ≤ q.1) :
    Within (put G a k) F := by
  constructor
  case start_mem =>
    rintro q (rfl | hq)
    · exact ha
    · exact h.start_mem q hq
  case subset =>
    rintro q (rfl | hq)
    · exact hsub
    · exact h.subset q hq
  case eq_of_start =>
    rintro q (rfl | hq) r (rfl | hr) heq
    · rfl
    · exact absurd heq.symm hr.2
    · exact absurd heq hq.2
    · exact h.eq_of_start q hq r hr heq
  case apart =>
    rintro q (rfl | hq) r (rfl | hr) hlt
    · exact absurd hlt (lt_irrefl _)
    · exact hright r hr.1 hlt
    · exact hleft q hq.1 hlt
    · exact h.apart q hq r hr hlt

/-- A range outside the set lies between the pairs. -/
theorem outside (hn : 0 < n) (hout : Disjoint F s n) (hq : q ∈ G) :
    (q.1 < s ∧ q.1 + q.2 ≤ s) ∨ s + n ≤ q.1 := by
  by_cases hlt : q.1 < s
  · refine .inl ⟨hlt, ?_⟩
    by_contra hover
    exact hout s ⟨le_rfl, by omega⟩ (h.subset q hq ⟨by omega, by omega⟩)
  · right
    by_contra hin
    exact hout q.1 ⟨by omega, by omega⟩ (h.start_mem q hq)

/-- No pair starts at a range outside the set. -/
theorem start_ne (hn : 0 < n) (hout : Disjoint F s n) : ∀ q ∈ G, q.1 ≠ s := by
  rintro q hq rfl
  exact hout q.1 ⟨le_rfl, by omega⟩ (h.start_mem q hq)

/-- A range that is not in the set is added to it and to the pairs. -/
theorem add (hn : 0 < n) (hout : Disjoint F s n) : Within (Gaps.put G s n) (addRange F s n) := by
  refine ((h.remove s).mono Set.subset_union_left).put (.inr ⟨le_rfl, by omega⟩)
    Set.subset_union_right (fun q hq hlt => ?_) fun q hq hlt => ?_
  · rcases h.outside hn hout hq with hq | hq <;> omega
  · rcases h.outside hn hout hq with hq | hq <;> omega

/-- The range is joined to the pair that ends where it starts. -/
theorem join_left (hn : 0 < n) (hout : Disjoint F s n) (hp : p ∈ G) (hadj : p.1 + p.2 = s)
    (hw : w ≤ n + p.2) : Within (Gaps.put G p.1 w) (addRange F s n) := by
  refine ((h.remove p.1).mono Set.subset_union_left).put (.inl (h.start_mem p hp))
    (fun x hx => ?_) (fun q hq => h.apart q hq p hp) fun q hq hpq => ?_
  · obtain ⟨hpx, hxw⟩ := hx
    by_cases hxs : x < s
    · exact .inl (h.subset p hp ⟨hpx, by omega⟩)
    · exact .inr ⟨by omega, by omega⟩
  · -- what follows the pair follows the range
    have := h.apart p hp q hq hpq
    rcases h.outside hn hout hq with hq | hq <;> omega

omit h in
/-- A pair is joined to the pair that starts where it ends. -/
theorem join_right (h : Within (Gaps.put G a k) F) (hq : q ∈ G) (hadj : a + k = q.1) (hk : 0 < k)
    (hw : w ≤ k + q.2) : Within (Gaps.put (Gaps.remove G q.1) a w) F := by
  have hmem : (a, k) ∈ Gaps.put G a k := .inl rfl
  have hq' : q ∈ Gaps.put G a k := .inr ⟨hq, by omega⟩
  have hold : ∀ r ∈ Gaps.remove G q.1, r.1 ≠ a → r ∈ Gaps.put G a k :=
    fun r hr hra => .inr ⟨hr.1, hra⟩
  have hrest : Within (Gaps.remove (Gaps.remove G q.1) a) F :=
    { start_mem := fun r hr => h.start_mem r (hold r hr.1 hr.2)
      subset := fun r hr => h.subset r (hold r hr.1 hr.2)
      eq_of_start := fun r hr t ht => h.eq_of_start r (hold r hr.1 hr.2) t (hold t ht.1 ht.2)
      apart := fun r hr t ht => h.apart r (hold r hr.1 hr.2) t (hold t ht.1 ht.2) }
  refine hrest.put (h.start_mem _ hmem) (fun x hx => ?_)
    (fun r hr hra => h.apart r (hold r hr hra.ne) _ hmem hra) fun r hr har => ?_
  · obtain ⟨hax, hxw⟩ := hx
    by_cases hxq : x < q.1
    · exact h.subset _ hmem ⟨hax, show x < a + k by omega⟩
    · exact h.subset q hq' ⟨by omega, by omega⟩
  · -- what follows the first pair follows the second
    have hkr : a + k ≤ r.1 := h.apart _ hmem r (hold r hr har.ne') har
    have hqr : q.1 < r.1 := lt_of_le_of_ne (by omega) (Ne.symm hr.2)
    have := h.apart q hq' r (hold r hr har.ne') hqr
    omega

/-- The other pairs keep their integers when those of a pair are taken. -/
theorem take_remove (hp : p ∈ G) (hn : n ≤ p.2) :
    Within (Gaps.remove G p.1) (takeRange F p.1 n) := by
  have hout : ∀ q ∈ Gaps.remove G p.1, ∀ x, q.1 ≤ x → x < q.1 + q.2 ∨ x = q.1 →
      x ∉ Set.Ico p.1 (p.1 + n) := by
    rintro q ⟨hq, hne⟩ x hqx hxq ⟨hpx, hxn⟩
    rcases lt_or_gt_of_ne hne with hqp | hpq
    · have := h.apart q hq p hp hqp
      omega
    · have := h.apart p hp q hq hpq
      omega
  exact {
    start_mem := fun q hq => ⟨h.start_mem q hq.1, hout q hq q.1 le_rfl (.inr rfl)⟩
    subset := fun q hq x hx => ⟨h.subset q hq.1 hx, hout q hq x hx.1 (.inl hx.2)⟩
    eq_of_start := (h.remove p.1).eq_of_start
    apart := (h.remove p.1).apart }

/-- The first integers of a pair are taken; the rest of it stays a pair. -/
theorem take (hp : p ∈ G) (hn : 0 < n) (hlt : n < p.2) :
    Within (Gaps.put (Gaps.remove G p.1) (p.1 + n) (p.2 - n)) (takeRange F p.1 n) := by
  refine ((h.take_remove hp hlt.le).remove _).put
    ⟨h.subset p hp ⟨by omega, by omega⟩, fun hx => absurd hx.2 (lt_irrefl _)⟩
    (fun x hx => ⟨h.subset p hp ⟨?_, ?_⟩, fun hx' => ?_⟩) (fun q hq hqn => ?_) fun q hq hnq => ?_
  · have := hx.1
    omega
  · have := hx.2
    omega
  · have := hx.1
    have := hx'.2
    omega
  · rcases lt_or_gt_of_ne hq.2 with hqp | hpq
    · have := h.apart q hq.1 p hp hqp
      omega
    · have := h.apart p hp q hq.1 hpq
      omega
  · have := h.apart p hp q hq.1 (by omega)
    omega

end

end Within

/-! ### Pairs that are the gaps of a set -/

/-- The pairs are the gaps of the set, except that the pair at `a` may end where the next one
starts. -/
structure TracksBut (G : Set (ℤ × ℤ)) (F : Set ℤ) (a : ℤ) : Prop extends Within G F where
  pos : ∀ p ∈ G, 0 < p.2
  covers : ∀ x ∈ F, ∃ p ∈ G, x ∈ Set.Ico p.1 (p.1 + p.2)
  separated : ∀ p ∈ G, ∀ q ∈ G, p.1 < q.1 → p.1 ≠ a → p.1 + p.2 < q.1

namespace Tracks

/-- No pairs track the empty set. -/
theorem empty : Tracks ∅ ∅ where
  start_mem := by simp
  subset := by simp
  eq_of_start := by simp
  apart := by simp
  pos := by simp
  covers := by simp
  separated := by simp

section

variable (h : Tracks G F)

include h

/-- A range that starts where no pair ends. -/
theorem add (hn : 0 < n) (hout : Disjoint F s n) (hend : ∀ p ∈ G, p.1 < s → p.1 + p.2 ≠ s) :
    TracksBut (put G s n) (addRange F s n) s where
  toWithin := h.toWithin.add hn hout
  pos := by
    rintro p (rfl | hp)
    · exact hn
    · exact h.pos p hp.1
  covers := by
    rintro x (hx | hx)
    · obtain ⟨p, hp, hxp⟩ := h.covers x hx
      refine ⟨p, .inr ⟨hp, fun hps => ?_⟩, hxp⟩
      exact hout p.1 (hps ▸ ⟨le_rfl, by omega⟩) (h.start_mem p hp)
    · exact ⟨(s, n), .inl rfl, hx⟩
  separated := by
    rintro p (rfl | hp) q (rfl | hq) hlt hps
    · exact absurd rfl hps
    · exact absurd rfl hps
    · refine lt_of_le_of_ne ?_ (hend p hp.1 hlt)
      rcases h.outside hn hout hp.1 with hp | hp
      · exact hp.2
      · have : p.1 < s := hlt
        omega
    · exact h.separated p hp.1 q hq.1 hlt

/-- A range that starts where a pair ends. -/
theorem join_left (hn : 0 < n) (hout : Disjoint F s n) (hp : p ∈ G)
    (hadj : p.1 + p.2 = s) : TracksBut (put G p.1 (n + p.2)) (addRange F s n) p.1 where
  toWithin := h.toWithin.join_left hn hout hp hadj le_rfl
  pos := by
    rintro q (rfl | hq)
    · have := h.pos p hp
      omega
    · exact h.pos q hq.1
  covers := by
    -- the integers of the pair and of the range are in the joined pair
    have hjoined : ∀ x, p.1 ≤ x → x < s + n → ∃ q ∈ put G p.1 (n + p.2),
        x ∈ Set.Ico q.1 (q.1 + q.2) :=
      fun x hx hxn => ⟨(p.1, n + p.2), .inl rfl, hx, show x < p.1 + (n + p.2) by omega⟩
    have hpos := h.pos p hp
    rintro x (hx | hx)
    · obtain ⟨q, hq, hxq⟩ := h.covers x hx
      by_cases hqp : q.1 = p.1
      · obtain rfl := h.eq_of_start q hq p hp hqp
        exact hjoined x hxq.1 (by have := hxq.2; omega)
      · exact ⟨q, .inr ⟨hq, hqp⟩, hxq⟩
    · exact hjoined x (by have := hx.1; omega) hx.2
  separated := by
    rintro q (rfl | hq) r (rfl | hr) hlt hqp
    · exact absurd rfl hqp
    · exact absurd rfl hqp
    · exact h.separated q hq.1 p hp hlt
    · exact h.separated q hq.1 r hr.1 hlt

/-- The first integers of a pair are taken. -/
theorem take (hp : p ∈ G) (hn : 0 < n) (hlt : n < p.2) :
    Tracks (put (remove G p.1) (p.1 + n) (p.2 - n)) (takeRange F p.1 n) where
  toWithin := h.toWithin.take hp hn hlt
  pos := by
    rintro q (rfl | hq)
    · simp only
      omega
    · exact h.pos q hq.1.1
  covers := by
    rintro x ⟨hx, hout⟩
    obtain ⟨q, hq, hxq⟩ := h.covers x hx
    by_cases hqp : q.1 = p.1
    · obtain rfl := h.eq_of_start q hq p hp hqp
      have hxn : q.1 + n ≤ x := by
        by_contra hxn
        exact hout ⟨hxq.1, by omega⟩
      refine ⟨(q.1 + n, q.2 - n), .inl rfl, hxn, ?_⟩
      have := hxq.2
      omega
    · have hqn : q.1 ≠ p.1 + n := by
        intro hqn
        have := h.separated p hp q hq (by omega)
        omega
      exact ⟨q, .inr ⟨⟨hq, hqp⟩, hqn⟩, hxq⟩
  separated := by
    rintro q (rfl | ⟨hq, -⟩) r (rfl | ⟨hr, -⟩) hqr
    · exact absurd hqr (lt_irrefl _)
    · have := h.separated p hp r hr.1 (by simp only at hqr; omega)
      omega
    · simp only at hqr ⊢
      rcases lt_or_gt_of_ne hq.2 with hqp | hpq
      · have := h.separated q hq.1 p hp hqp
        omega
      · have := h.separated p hp q hq.1 hpq
        omega
    · exact h.separated q hq.1 r hr.1 hqr

/-- A whole pair is taken. -/
theorem take_all (hp : p ∈ G) : Tracks (remove G p.1) (takeRange F p.1 p.2) where
  toWithin := h.toWithin.take_remove hp le_rfl
  pos q hq := h.pos q hq.1
  covers := by
    rintro x ⟨hx, hout⟩
    obtain ⟨q, hq, hxq⟩ := h.covers x hx
    refine ⟨q, ⟨hq, fun hqp => hout ?_⟩, hxq⟩
    rwa [← h.eq_of_start q hq p hp hqp]
  separated q hq r hr := h.separated q hq.1 r hr.1

/-- A pair is a gap. -/
theorem isGap (hp : p ∈ G) : IsGap F p.1 (p.1 + p.2) where
  lt := by have := h.pos p hp; omega
  subset := h.subset p hp
  before := by
    intro hx
    obtain ⟨q, hq, hxq⟩ := h.covers _ hx
    have := h.separated q hq p hp (by have := hxq.1; omega)
    have := hxq.2
    omega
  after := by
    intro hx
    obtain ⟨q, hq, hxq⟩ := h.covers _ hx
    have hpos := h.pos p hp
    rcases lt_trichotomy p.1 q.1 with hlt | heq | hgt
    · have := h.separated p hp q hq hlt
      have := hxq.1
      omega
    · obtain rfl := h.eq_of_start p hp q hq heq
      exact absurd hxq.2 (lt_irrefl _)
    · have := h.separated q hq p hp hgt
      have := hxq.2
      omega

/-- The pairs are the gaps. -/
theorem mem_iff : (a, k) ∈ G ↔ IsGap F a (a + k) := by
  refine ⟨fun hp => h.isGap hp, fun hgap => ?_⟩
  have ha : a ∈ Set.Ico a (a + k) := ⟨le_rfl, hgap.lt⟩
  obtain ⟨q, hq, haq⟩ := h.covers a (hgap.subset ha)
  obtain ⟨hstart, hend⟩ := hgap.eq_of_mem (h.isGap hq) ha haq
  have : q = (a, k) := Prod.ext hstart.symm (by simp only; omega)
  rwa [← this]

end

/-- The sizes of the pairs add up to the size of the set. -/
theorem ncard_eq {m : List (ℤ × ℤ)} (hm : m.Nodup) (h : Tracks {p | p ∈ m} F) :
    (F.ncard : ℤ) = (m.map Prod.snd).sum := by
  have hF : F = (m.toFinset.biUnion fun p => Finset.Ico p.1 (p.1 + p.2) : Finset ℤ) := by
    ext x
    simp only [Finset.coe_biUnion, List.coe_toFinset, Set.mem_iUnion, Finset.coe_Ico]
    constructor
    · intro hx
      obtain ⟨p, hp, hxp⟩ := h.covers x hx
      exact ⟨p, hp, hxp⟩
    · rintro ⟨p, hp, hxp⟩
      exact h.subset p hp hxp
  have hdisjoint : (m.toFinset : Set (ℤ × ℤ)).PairwiseDisjoint
      fun p => Finset.Ico p.1 (p.1 + p.2) := by
    intro p hp q hq hne
    rw [Function.onFun, Finset.disjoint_left]
    intro x hxp hxq
    rw [Finset.mem_Ico] at hxp hxq
    rw [List.coe_toFinset] at hp hq
    rcases lt_trichotomy p.1 q.1 with hlt | heq | hgt
    · have := h.apart p hp q hq hlt
      omega
    · exact hne (h.eq_of_start p hp q hq heq)
    · have := h.apart q hq p hp hgt
      omega
  rw [hF, Set.ncard_coe_finset, Finset.card_biUnion hdisjoint, Nat.cast_sum,
    ← List.sum_toFinset _ hm]
  refine Finset.sum_congr rfl fun p hp => ?_
  rw [Int.card_Ico, add_sub_cancel_left]
  exact Int.toNat_of_nonneg (h.pos p (List.mem_toFinset.mp hp)).le

end Tracks

namespace TracksBut

/-- No pair starts where the last one ends. -/
theorem done (h : TracksBut (put G a k) F a) (hnext : ∀ q ∈ G, a < q.1 → a + k ≠ q.1) :
    Tracks (put G a k) F := by
  refine { h with separated := ?_ }
  · intro p hp q hq hlt
    by_cases hpa : p.1 = a
    · obtain rfl : p = (a, k) := h.eq_of_start p hp (a, k) (.inl rfl) hpa
      rcases hq with rfl | hq
      · exact absurd hlt (lt_irrefl _)
      · exact lt_of_le_of_ne (h.apart (a, k) hp q (.inr hq) hlt) (hnext q hq.1 hlt)
    · exact h.separated p hp q hq hlt hpa

/-- A pair starts where the last one ends. -/
theorem join_right (h : TracksBut (put G a k) F a) (hq : q ∈ G) (hadj : a + k = q.1) :
    Tracks (put (remove G q.1) a (k + q.2)) F := by
  have hk : 0 < k := h.pos (a, k) (.inl rfl)
  have hqa : q.1 ≠ a := by omega
  have hqpos := h.pos q (.inr ⟨hq, hqa⟩)
  exact {
    toWithin := h.toWithin.join_right hq hadj hk le_rfl
    pos := by
      rintro p (rfl | hp)
      · simp only
        omega
      · exact h.pos p (.inr ⟨hp.1.1, hp.2⟩)
    covers := by
      intro x hx
      have hjoined : a ≤ x → x < q.1 + q.2 →
          ∃ p ∈ put (remove G q.1) a (k + q.2), x ∈ Set.Ico p.1 (p.1 + p.2) :=
        fun hax hxq => ⟨(a, k + q.2), .inl rfl, hax, show x < a + (k + q.2) by omega⟩
      obtain ⟨p, rfl | ⟨hp, hpa⟩, hxp⟩ := h.covers x hx
      · exact hjoined hxp.1 (by have := hxp.2; simp only at this; omega)
      · by_cases hpq : p.1 = q.1
        · obtain rfl := h.eq_of_start p (.inr ⟨hp, hpa⟩) q (.inr ⟨hq, hqa⟩) hpq
          exact hjoined (by have := hxp.1; omega) hxp.2
        · exact ⟨p, .inr ⟨⟨hp, hpq⟩, hpa⟩, hxp⟩
    separated := by
      rintro p (rfl | ⟨hp, hpa⟩) r (rfl | ⟨hr, hra⟩) hlt
      · exact absurd hlt (lt_irrefl _)
      · -- what follows the first pair follows the second, which is not at `a`
        have hkr := h.apart (a, k) (.inl rfl) r (.inr ⟨hr.1, hra⟩) hlt
        have hqr : q.1 < r.1 := lt_of_le_of_ne (by simp only at hkr; omega) (Ne.symm hr.2)
        have := h.separated q (.inr ⟨hq, hqa⟩) r (.inr ⟨hr.1, hra⟩) hqr hqa
        omega
      · exact h.separated p (.inr ⟨hp.1, hpa⟩) (a, k) (.inl rfl) hlt hpa
      · exact h.separated p (.inr ⟨hp.1, hpa⟩) r (.inr ⟨hr.1, hra⟩) hlt hpa }

end TracksBut

end Math.Gaps
