import AndroidEmu.Math.Gaps
import AndroidEmu.RamSnapshot.GapTracker

/-!
# The indices of a gap tracker

The two maps of a `GenericGapTracker` hold the same gaps, also where a size does not fit an `int`.
The gaps stay within the space that was added and not allocated. If every size fits, they are its
gaps.
-/

namespace AndroidEmu.RamSnapshot.GenericGapTracker

open CS Math List Gaps OrderedMap

/-! ### The index by size -/

/-- The lists by size hold exactly the given gaps, each once, and none is empty. -/
structure Indexed (G : Set Gap) (bySize : List (ℤ × List ℤ)) : Prop where
  sorted : OrderedMap.Sorted bySize
  ne_nil : ∀ k l, (k, l) ∈ bySize → l ≠ []
  nodup : ∀ k l, (k, l) ∈ bySize → l.Nodup
  mem_iff : ∀ s k, (s, k) ∈ G ↔ ∃ l, (k, l) ∈ bySize ∧ s ∈ l

def gaps (byStart : List Gap) : Set Gap := {p | p ∈ byStart}

variable {G : Set Gap} {m : List Gap} {bySize : List (ℤ × List ℤ)} {t : GenericGapTracker}
  {F : Set ℤ} {p : Gap} {s n : ℤ}

@[simp] theorem mem_gaps : p ∈ gaps m ↔ p ∈ m := Iff.rfl

theorem gaps_set (h : Sorted m) (a k : ℤ) : gaps (set m a k) = put (gaps m) a k :=
  Set.ext fun _ => mem_set h

theorem gaps_erase (m : List Gap) (a : ℤ) : gaps (OrderedMap.erase m a) = remove (gaps m) a :=
  Set.ext fun _ => mem_erase

/-- The start determines the gap. -/
def Keyed (G : Set Gap) : Prop := ∀ p ∈ G, ∀ q ∈ G, p.1 = q.1 → p = q

variable {k a e : ℤ}

namespace Indexed

theorem eq_of_size (h : Indexed G bySize) {l l' : List ℤ} (hl : (k, l) ∈ bySize)
    (hl' : (k, l') ∈ bySize) : l = l' :=
  congrArg Prod.snd (h.sorted.eq_of_key hl hl' rfl)

theorem eraseFromBySize (h : Indexed G t.bySize) (hG : Keyed G) (hp : p ∈ G) :
    ∃ bySize, t.eraseFromBySize p = .ok { t with bySize } ∧ Indexed (remove G p.1) bySize := by
  obtain ⟨l, hl, hmem⟩ := (h.mem_iff p.1 p.2).mp hp
  have hkey : ∀ k, (p.1, k) ∈ G → k = p.2 := fun k hk => congrArg Prod.snd (hG _ hk p hp rfl)
  rw [GenericGapTracker.eraseFromBySize, (get_eq_some h.sorted).mpr hl]
  dsimp only
  by_cases hlen : l.length = 1
  · rw [if_pos hlen]
    obtain ⟨x, rfl⟩ := length_eq_one_iff.mp hlen
    obtain rfl : p.1 = x := by simpa using hmem
    refine ⟨_, rfl, h.sorted.erase _, fun k l hl => ?_, fun k l hl => ?_, fun s k => ?_⟩
    · exact h.ne_nil k l (mem_erase.mp hl).1
    · exact h.nodup k l (mem_erase.mp hl).1
    · simp only [mem_remove, mem_erase, h.mem_iff]
      constructor
      · rintro ⟨⟨l', hl', hs⟩, hne⟩
        refine ⟨l', ⟨hl', fun hk => hne ?_⟩, hs⟩
        obtain rfl : k = p.2 := hk
        rw [h.eq_of_size hl' hl] at hs
        simpa using hs
      · rintro ⟨l', ⟨hl', hne⟩, hs⟩
        refine ⟨⟨l', hl', hs⟩, fun hsp => hne (hkey k ?_)⟩
        exact (h.mem_iff _ _).mpr ⟨l', hl', hsp ▸ hs⟩
  · rw [if_neg hlen, if_pos hmem]
    have hset : ∀ k l', (k, l') ∈ set t.bySize p.2 (l.erase p.1) ↔
        (k, l') = (p.2, l.erase p.1) ∨ (k, l') ∈ t.bySize ∧ k ≠ p.2 := fun k l' =>
      mem_set h.sorted
    refine ⟨_, rfl, h.sorted.set _ _, fun k l' hl' => ?_, fun k l' hl' => ?_, fun s k => ?_⟩
    · rcases (hset k l').mp hl' with heq | ⟨hold, -⟩
      · obtain ⟨rfl, rfl⟩ := Prod.mk.inj heq
        intro hnil
        have := length_erase_of_mem hmem
        rw [hnil, length_nil] at this
        have := length_pos_of_mem hmem
        omega
      · exact h.ne_nil k l' hold
    · rcases (hset k l').mp hl' with heq | ⟨hold, -⟩
      · obtain ⟨rfl, rfl⟩ := Prod.mk.inj heq
        exact (h.nodup _ _ hl).erase _
      · exact h.nodup k l' hold
    · simp only [mem_remove, hset, h.mem_iff]
      constructor
      · rintro ⟨⟨l', hl', hs⟩, hne⟩
        by_cases hk : k = p.2
        · obtain rfl := hk
          obtain rfl := h.eq_of_size hl' hl
          exact ⟨_, .inl rfl, ((h.nodup _ _ hl).mem_erase_iff).mpr ⟨hne, hs⟩⟩
        · exact ⟨l', .inr ⟨hl', hk⟩, hs⟩
      · rintro ⟨l', heq | ⟨hl', hne⟩, hs⟩
        · obtain ⟨rfl, rfl⟩ := Prod.mk.inj heq
          obtain ⟨hne, hs⟩ := (h.nodup _ _ hl).mem_erase_iff.mp hs
          exact ⟨⟨l, hl, hs⟩, hne⟩
        · refine ⟨⟨l', hl', hs⟩, fun hsp => hne (hkey k ?_)⟩
          exact (h.mem_iff _ _).mpr ⟨l', hl', hsp ▸ hs⟩

theorem sum_sizes (h : Indexed (gaps m) bySize) (hm : m.Nodup) :
    (bySize.map fun p => p.1 * (p.2.length : ℤ)).sum = (m.map Prod.snd).sum := by
  have hperm : m.Perm (bySize.flatMap fun p => p.2.map fun s => (s, p.1)) := by
    refine (perm_ext_iff_of_nodup hm ?_).mpr fun p => ?_
    · rw [nodup_flatMap]
      refine ⟨fun p hp => (h.nodup p.1 p.2 hp).map fun _ _ heq => congrArg Prod.fst heq, ?_⟩
      refine h.sorted.imp fun {p q} hlt => ?_
      simp only [Function.onFun, disjoint_left, List.mem_map]
      rintro _ ⟨s, -, rfl⟩ ⟨s', -, heq⟩
      exact hlt.ne (congrArg Prod.snd heq).symm
    · rw [← mem_gaps, h.mem_iff]
      simp only [mem_flatMap, List.mem_map]
      constructor
      · rintro ⟨l, hl, hs⟩
        exact ⟨_, hl, _, hs, rfl⟩
      · rintro ⟨q, hq, s, hs, rfl⟩
        exact ⟨q.2, hq, hs⟩
  rw [(hperm.map Prod.snd).sum_eq, map_flatMap, List.flatMap, sum_flatten, List.map_map]
  congr 1
  refine map_congr_left fun p _ => ?_
  simp [Function.comp_def, mul_comm]

theorem enter (h : Indexed G bySize) (ha : ∀ p ∈ G, p.1 ≠ a) : Indexed (put G a k)
      (set bySize k ((get bySize k).getD [] ++ [a])) := by
  have hlist : ∀ s, s ∈ (get bySize k).getD [] ↔ (s, k) ∈ G := by
    intro s
    rw [h.mem_iff]
    cases hget : get bySize k with
    | none =>
      simp only [Option.getD_none, not_mem_nil, false_iff, not_exists, not_and]
      exact fun l hl => absurd rfl (get_eq_none.mp hget (k, l) hl)
    | some l =>
      rw [get_eq_some h.sorted] at hget
      constructor
      · exact fun hs => ⟨l, hget, hs⟩
      · rintro ⟨l', hl', hs⟩
        rwa [h.eq_of_size hget hl']
  have hnodup : ((get bySize k).getD []).Nodup := by
    cases hget : get bySize k with
    | none => exact nodup_nil
    | some l => exact h.nodup k l ((get_eq_some h.sorted).mp hget)
  have hset : ∀ k' l, (k', l) ∈ set bySize k ((get bySize k).getD [] ++ [a]) ↔
      (k', l) = (k, (get bySize k).getD [] ++ [a]) ∨ (k', l) ∈ bySize ∧ k' ≠ k :=
    fun k' l => mem_set h.sorted
  refine ⟨h.sorted.set _ _, fun k' l hl => ?_, fun k' l hl => ?_, fun s k' => ?_⟩
  · rcases (hset k' l).mp hl with heq | ⟨hold, -⟩
    · rw [(Prod.mk.inj heq).2]
      simp
    · exact h.ne_nil k' l hold
  · rcases (hset k' l).mp hl with heq | ⟨hold, -⟩
    · rw [(Prod.mk.inj heq).2]
      rw [← concat_eq_append]
      exact hnodup.concat fun hmem => ha _ ((hlist a).mp hmem) rfl
    · exact h.nodup k' l hold
  · simp only [mem_put, hset]
    constructor
    · rintro (heq | ⟨hs, hne⟩)
      · obtain ⟨rfl, rfl⟩ := Prod.mk.inj heq
        exact ⟨_, .inl rfl, by simp⟩
      · by_cases hk : k' = k
        · obtain rfl := hk
          exact ⟨_, .inl rfl, mem_append_left _ ((hlist s).mpr hs)⟩
        · obtain ⟨l, hl, hmem⟩ := (h.mem_iff s k').mp hs
          exact ⟨l, .inr ⟨hl, hk⟩, hmem⟩
    · rintro ⟨l, heq | ⟨hl, hne⟩, hs⟩
      · obtain ⟨rfl, rfl⟩ := Prod.mk.inj heq
        rcases mem_append.mp hs with hs | hs
        · have := (hlist s).mp hs
          exact .inr ⟨this, ha _ this⟩
        · exact .inl (by rw [mem_singleton.mp hs])
      · have := (h.mem_iff s k').mpr ⟨l, hl, hs⟩
        exact .inr ⟨this, ha _ this⟩

end Indexed

/-! ### Adding a gap -/

/-- The tracker's maps agree, and sizes are those of an `int`. -/
structure Consistent (t : GenericGapTracker) : Prop where
  sorted : OrderedMap.Sorted t.byStart
  indexed : Indexed (gaps t.byStart) t.bySize
  size_bounds : ∀ p ∈ t.byStart, -2 ^ 31 ≤ p.2 ∧ p.2 < 2 ^ 31
  empty_eq : t.empty = t.byStart.isEmpty

/-- The start and the size of a new gap after it was joined on the left. Only the last gap
before it is looked at. -/
inductive JoinsLeft (G : Set Gap) (s n : ℤ) : ℤ → ℤ → Prop
  | alone (h : ∀ p ∈ G, p.1 < s → (∀ r ∈ G, r.1 < s → r.1 ≤ p.1) → wrapInt64 (p.1 + p.2) ≠ s) :
    JoinsLeft G s n s n
  | joined {p : Gap} (hp : p ∈ G) (hlt : p.1 < s) (hadj : wrapInt64 (p.1 + p.2) = s) :
    JoinsLeft G s n p.1 (wrapInt (n + p.2))

/-- The gaps after a new one was joined on the right. Only the first gap after it is looked
at. -/
inductive JoinsRight (G : Set Gap) (a k : ℤ) : Set Gap → Prop
  | alone (h : ∀ q ∈ G, a < q.1 → (∀ r ∈ G, a < r.1 → q.1 ≤ r.1) → wrapInt64 (a + k) ≠ q.1) :
    JoinsRight G a k (Gaps.put G a k)
  | joined {q : Gap} (hq : q ∈ G) (hlt : a < q.1) (hadj : wrapInt64 (a + k) = q.1) :
    JoinsRight G a k (Gaps.put (Gaps.remove G q.1) a (wrapInt (k + q.2)))

/-- The set of bytes is one of 64-bit positions. -/
def Positions (F : Set ℤ) : Prop := ∀ x ∈ F, -2 ^ 63 ≤ x ∧ x < 2 ^ 63

theorem Consistent.keyed (h : t.Consistent) : Keyed (gaps t.byStart) :=
  fun _ hp _ hq heq => h.sorted.eq_of_key hp hq heq

theorem joinPrevious_spec (h : t.Consistent) (hs : ∀ p ∈ t.byStart, p.1 ≠ s) :
    ∃ a k bySize, JoinsLeft (gaps t.byStart) s n a k ∧
      t.joinPrevious s n = .ok ({ t with bySize }, a, k) ∧
      Indexed (remove (gaps t.byStart) a) bySize := by
  have hindexed : Indexed (remove (gaps t.byStart) s) t.bySize := by
    have hfresh : remove (gaps t.byStart) s = gaps t.byStart :=
      Set.ext fun p => ⟨And.left, fun hp => ⟨hp, hs p hp⟩⟩
    rw [hfresh]
    exact h.indexed
  rw [joinPrevious]
  cases hprev : before t.byStart s with
  | none =>
    refine ⟨s, n, t.bySize, .alone fun p hp hlt => ?_, rfl, hindexed⟩
    exact absurd hlt (before_eq_none.mp hprev p hp).not_gt
  | some prev =>
    obtain ⟨hmem, hlt, hlast⟩ := before_eq_some h.sorted hprev
    dsimp only
    by_cases hadj : wrapInt64 (prev.1 + prev.2) = s
    · obtain ⟨bySize, herase, hrest⟩ := h.indexed.eraseFromBySize h.keyed hmem
      rw [if_pos hadj, herase]
      exact ⟨prev.1, _, bySize, .joined hmem hlt hadj, rfl, hrest⟩
    · rw [if_neg hadj]
      refine ⟨s, n, t.bySize, .alone fun p hp hps hmax => ?_, rfl, hindexed⟩
      rwa [h.sorted.eq_of_key hp hmem (le_antisymm (hlast p hp hps) (hmax prev hmem hlt))]

theorem joinNext_spec (hsorted : Sorted t.byStart)
    (hindexed : Indexed (remove (gaps t.byStart) a) t.bySize) :
    ∃ byStart bySize w, JoinsRight (gaps t.byStart) a k (put (gaps byStart) a w) ∧
      t.joinNext a k = .ok ({ t with byStart, bySize }, w) ∧ Sorted byStart ∧
      Indexed (remove (gaps byStart) a) bySize := by
  rw [joinNext]
  cases hnext : after t.byStart a with
  | none =>
    refine ⟨_, _, k, .alone fun q hq hlt => ?_, rfl, hsorted, hindexed⟩
    exact absurd hlt (after_eq_none.mp hnext q hq).not_gt
  | some next =>
    obtain ⟨hmem, hlt, hfirst⟩ := (after_eq_some hsorted).mp hnext
    dsimp only
    by_cases hadj : wrapInt64 (a + k) = next.1
    · have hkeyed : Keyed (remove (gaps t.byStart) a) :=
        fun p hp q hq heq => hsorted.eq_of_key hp.1 hq.1 heq
      obtain ⟨bySize, herase, hrest⟩ := hindexed.eraseFromBySize hkeyed ⟨hmem, hlt.ne'⟩
      rw [if_pos hadj, erase, herase]
      refine ⟨OrderedMap.erase t.byStart next.1, bySize, _, ?_, rfl, hsorted.erase _, ?_⟩
      · rw [gaps_erase]
        exact .joined hmem hlt hadj
      · rw [gaps_erase]
        convert hrest using 1
        exact Set.ext fun p => and_right_comm
    · rw [if_neg hadj]
      refine ⟨_, _, k, .alone fun q hq hlt' hmin => ?_, rfl, hsorted, hindexed⟩
      rwa [hsorted.eq_of_key hq hmem (le_antisymm (hmin next hmem hlt) (hfirst q hq hlt'))]

theorem addLocked_spec (h : t.Consistent) (hs : ∀ p ∈ t.byStart, p.1 ≠ s) :
    ∃ a k t', JoinsLeft (gaps t.byStart) s n a k ∧
      JoinsRight (gaps t.byStart) a k (gaps t'.byStart) ∧ t.addLocked s n = .ok t' ∧
      Sorted t'.byStart ∧ Indexed (gaps t'.byStart) t'.bySize ∧
      t'.empty = t'.byStart.isEmpty := by
  obtain ⟨a, k, bySize, hleft, hprev, hindexed⟩ := joinPrevious_spec (n := n) h hs
  obtain ⟨byStart, bySize', w, hright, hnext, hsorted, hindexed'⟩ :=
    joinNext_spec (t := { t with bySize }) (k := k) h.sorted hindexed
  have hgaps : gaps (set byStart a w) = put (gaps byStart) a w := gaps_set hsorted a w
  refine ⟨a, k, { ({ t with byStart, bySize := bySize' } : GenericGapTracker).enter a w with
    empty := t.empty && !t.byStart.isEmpty }, hleft, ?_, ?_, ?_, ?_, ?_⟩
  · exact hgaps ▸ hright
  · rw [addLocked, hprev]
    simp only [Checked.ok_bind, hnext]
    rfl
  · exact hsorted.set a w
  · have henter := hindexed'.enter (k := w) fun p hp => hp.2
    have hput : put (remove (gaps byStart) a) a w = put (gaps byStart) a w := by
      refine Set.ext fun p => or_congr_right ?_
      simp
    rw [hput, ← hgaps] at henter
    exact henter
  · have hne := isEmpty_eq_false_iff.mpr
      (OrderedMap.set_ne_nil (m := byStart) (k := a) (v := w))
    simp [h.empty_eq, enter, hne]

/-! ### Allocating -/

/-- A gap of sufficient size, none of the others being smaller and sufficient. -/
structure Smallest (m : List Gap) (n : ℤ) (p : Gap) : Prop where
  mem : p ∈ m
  le : n ≤ p.2
  least : ∀ q ∈ m, n ≤ q.2 → p.2 ≤ q.2

/-- What is left of a gap from whose start `n` bytes are taken. -/
inductive TakesFrom (G : Set Gap) (p : Gap) (n : ℤ) : Set Gap → Prop
  | part (hlt : n < p.2) : TakesFrom G p n (Gaps.put (Gaps.remove G p.1) (p.1 + n) (p.2 - n))
  | all (heq : n = p.2) : TakesFrom G p n (Gaps.remove G p.1)

theorem allocate_spec (h : t.Consistent) (hn : 0 < n) (hw : Within (gaps t.byStart) F)
    (hF : Positions F) : (t.allocate n = .ok (t, none) ∧ ∀ p ∈ t.byStart, p.2 < n) ∨
      ∃ p t', Smallest t.byStart n p ∧ t.allocate n = .ok (t', some p.1) ∧
        TakesFrom (gaps t.byStart) p n (gaps t'.byStart) ∧ Sorted t'.byStart ∧
        Indexed (gaps t'.byStart) t'.bySize ∧ t'.empty = t'.byStart.isEmpty := by
  rw [allocate]
  by_cases hempty : t.empty = true
  · rw [if_pos hempty]
    rw [h.empty_eq, List.isEmpty_iff] at hempty
    exact .inl ⟨rfl, by simp [hempty]⟩
  rw [if_neg hempty]
  cases hbound : lowerBound t.bySize n with
  | none =>
    refine .inl ⟨rfl, fun p hp => ?_⟩
    obtain ⟨l, hl, -⟩ := (h.indexed.mem_iff p.1 p.2).mp hp
    exact lowerBound_eq_none.mp hbound _ hl
  | some entry =>
    right
    obtain ⟨hmem, hle, hleast⟩ := (lowerBound_eq_some h.indexed.sorted).mp hbound
    obtain ⟨rangeSize, starts⟩ := entry
    obtain ⟨pos, rest, rfl⟩ := exists_cons_of_ne_nil (h.indexed.ne_nil _ _ hmem)
    have hp : (pos, rangeSize) ∈ t.byStart :=
      (h.indexed.mem_iff pos rangeSize).mpr ⟨_, hmem, mem_cons_self⟩
    have hsmallest : Smallest t.byStart n (pos, rangeSize) := by
      refine ⟨hp, hle, fun q hq hnq => ?_⟩
      obtain ⟨l, hl, -⟩ := (h.indexed.mem_iff q.1 q.2).mp hq
      exact hleast (q.2, l) hl hnq
    obtain ⟨bySize, herase, hrest⟩ := h.indexed.eraseFromBySize h.keyed hp
    have hrest' : Indexed (gaps (OrderedMap.erase t.byStart pos)) bySize := by
      rw [gaps_erase]
      exact hrest
    have hsorted := h.sorted.erase pos
    have hget := (get_eq_some h.sorted).mpr hp
    simp only [hget, erase, herase, Checked.ok_bind, Checked.pure_eq_ok]
    by_cases hlt : n < rangeSize
    · rw [if_pos hlt]
      have hstart := hF _ (hw.subset _ hp ⟨show pos ≤ pos + n by omega,
        show pos + n < pos + rangeSize by omega⟩)
      have hsize := (h.size_bounds _ hp).2
      rw [wrapInt64_of_bounds hstart.1 hstart.2, wrapInt_of_bounds (by omega) (by omega)]
      have hgaps := gaps_set hsorted (pos + n) (rangeSize - n)
      -- no other gap starts inside this one
      have hfresh : ∀ q ∈ gaps (OrderedMap.erase t.byStart pos), q.1 ≠ pos + n := by
        rintro q hq hqn
        have := hw.apart _ hp q (mem_erase.mp hq).1 (by simp only; omega)
        omega
      refine ⟨_, _, hsmallest, rfl, ?_, hsorted.set _ _, ?_, ?_⟩
      · simp only [enter, hgaps, gaps_erase]
        exact .part hlt
      · have henter := hrest'.enter (k := rangeSize - n) hfresh
        rw [← hgaps] at henter
        exact henter
      · have hne := isEmpty_eq_false_iff.mpr
          (OrderedMap.set_ne_nil (m := OrderedMap.erase t.byStart pos) (k := pos + n)
            (v := rangeSize - n))
        simp only [enter, hne]
        simpa using hempty
    · rw [if_neg hlt]
      refine ⟨_, _, hsmallest, rfl, ?_, hsorted, hrest', ?_⟩
      · rw [gaps_erase]
        exact .all (by simp only; omega)
      · simp [hempty]

/-! ### Trackers with any sizes -/

theorem JoinsLeft.size_bounds (h : JoinsLeft G s n a k) (hn : 0 < n) (hn' : n < 2 ^ 31) :
    -2 ^ 31 ≤ k ∧ k < 2 ^ 31 := by
  cases h with
  | alone _ => omega
  | joined _ _ _ => exact ⟨neg_le_wrapInt _, wrapInt_lt _⟩

variable {G' : Set Gap}

theorem JoinsRight.size_bounds (h : JoinsRight G a k G') (hk : -2 ^ 31 ≤ k ∧ k < 2 ^ 31)
    (hG : ∀ p ∈ G, -2 ^ 31 ≤ p.2 ∧ p.2 < 2 ^ 31) : ∀ p ∈ G', -2 ^ 31 ≤ p.2 ∧ p.2 < 2 ^ 31 := by
  cases h with
  | alone _ =>
    rintro p (rfl | hp)
    · exact hk
    · exact hG p hp.1
  | joined _ _ _ =>
    rintro p (rfl | hp)
    · exact ⟨neg_le_wrapInt _, wrapInt_lt _⟩
    · exact hG p hp.1.1

theorem TakesFrom.size_bounds (h : TakesFrom G p n G') (hn : 0 < n) (hp : p ∈ G)
    (hG : ∀ p ∈ G, -2 ^ 31 ≤ p.2 ∧ p.2 < 2 ^ 31) : ∀ q ∈ G', -2 ^ 31 ≤ q.2 ∧ q.2 < 2 ^ 31 := by
  have := hG p hp
  cases h with
  | part hlt =>
    rintro q (rfl | hq)
    · simp only
      omega
    · exact hG q hq.1.1
  | all _ => exact fun q hq => hG q hq.1

/-- The maps agree, and the gaps are disjoint intervals of a set of bytes. -/
structure Holds (t : GenericGapTracker) (F : Set ℤ) : Prop extends t.Consistent where
  within : Gaps.Within (gaps t.byStart) F
  positions : Positions F

namespace Holds

theorem end_eq (h : t.Holds F) (hfile : ∀ x ∈ F, 0 ≤ x) (hp : p ∈ t.byStart)
    (hend : p.1 + p.2 < 2 ^ 63) : wrapInt64 (p.1 + p.2) = p.1 + p.2 := by
  have := hfile p.1 (h.within.start_mem p hp)
  have := (h.size_bounds p hp).1
  exact wrapInt64_of_bounds (by omega) hend

theorem add (h : t.Holds F) (hn : 0 < n) (hn' : n < 2 ^ 31) (hout : Disjoint F s n)
    (hfile : ∀ x ∈ addRange F s n, 0 ≤ x ∧ x < 2 ^ 63) :
    ∃ t', t.add s n = .ok t' ∧ t'.Holds (addRange F s n) := by
  have hs := hfile s (.inr ⟨le_rfl, by omega⟩)
  obtain ⟨a, k, t', hleft, hright, hadd, hsorted, hindexed, hempty⟩ :=
    addLocked_spec (n := n) h.toConsistent (h.within.start_ne hn hout)
  have hk := hleft.size_bounds hn hn'
  have hput : Within (put (gaps t.byStart) a k) (addRange F s n) := by
    cases hleft with
    | alone _ => exact h.within.add hn hout
    | @joined p hp hlt hadj =>
      have hend : p.1 + p.2 ≤ s := by
        rcases h.within.outside hn hout hp with hp | hp <;> omega
      rw [h.end_eq (fun x hx => (hfile x (.inl hx)).1) hp (by omega)] at hadj
      exact h.within.join_left hn hout hp hadj (wrapInt_le (by omega))
  have ha := hfile a (hput.start_mem (a, k) (.inl rfl))
  have hwithin : Within (gaps t'.byStart) (addRange F s n) := by
    generalize gaps t'.byStart = G' at hright
    cases hright with
    | alone _ => exact hput
    | @joined q hq hlt hadj =>
      have hend : a + k ≤ q.1 := hput.apart (a, k) (.inl rfl) q (.inr ⟨hq, hlt.ne'⟩) hlt
      have hqpos := h.positions q.1 (h.within.start_mem q hq)
      rw [wrapInt64_of_bounds (by omega) (by omega)] at hadj
      have := (h.size_bounds q hq).1
      exact hput.join_right hq hadj (by omega) (wrapInt_le (by omega))
  refine ⟨t', by rw [GenericGapTracker.add, if_neg (by omega), hadd], ?_⟩
  exact ⟨⟨hsorted, hindexed, hright.size_bounds hk h.size_bounds, hempty⟩, hwithin, fun x hx => by
    have := hfile x hx
    omega⟩

theorem allocate (h : t.Holds F) (hn : 0 < n) :
    t.allocate n = .ok (t, none) ∨ ∃ pos t', t.allocate n = .ok (t', some pos) ∧
      Set.Ico pos (pos + n) ⊆ F ∧ t'.Holds (takeRange F pos n) := by
  rcases allocate_spec h.toConsistent hn h.within h.positions with
    ⟨hnone, -⟩ | ⟨p, t', hsmall, halloc, htakes, hsorted, hindexed, hempty⟩
  · exact .inl hnone
  have hsub : Set.Ico p.1 (p.1 + n) ⊆ F := by
    have := hsmall.le
    exact (Set.Ico_subset_Ico_right (by omega)).trans (h.within.subset p hsmall.mem)
  have hsizes := htakes.size_bounds hn hsmall.mem h.size_bounds
  have hwithin : Within (gaps t'.byStart) (takeRange F p.1 n) := by
    generalize gaps t'.byStart = G' at htakes
    cases htakes with
    | part hlt => exact h.within.take hsmall.mem hn hlt
    | all heq => exact h.within.take_remove hsmall.mem heq.le
  exact .inr ⟨p.1, t', halloc, hsub, ⟨hsorted, hindexed, hsizes, hempty⟩, hwithin,
    fun x hx => h.positions x hx.1⟩

end Holds

/-! ### Trackers whose sizes fit -/

/-- The maps agree, and the gaps are those of a set of bytes. -/
structure Represents (t : GenericGapTracker) (F : Set ℤ) : Prop extends t.Consistent where
  tracks : Gaps.Tracks (gaps t.byStart) F
  positions : Positions F

/-- The size of the gap that ends at a position, zero if there is none. -/
def endingAt (t : GenericGapTracker) (s : ℤ) : ℤ :=
  ((t.byStart.find? fun p => p.1 + p.2 = s).map Prod.snd).getD 0

/-- The size of the gap that starts at a position, zero if there is none. -/
def startingAt (t : GenericGapTracker) (s : ℤ) : ℤ := (OrderedMap.get t.byStart s).getD 0

/-- The size of a new gap together with those it is joined with. -/
def joinedSize (t : GenericGapTracker) (s n : ℤ) : ℤ := n + t.endingAt s + t.startingAt (s + n)

namespace Represents

section

variable (h : t.Represents F)

include h

theorem toHolds : t.Holds F where
  toConsistent := h.toConsistent
  within := h.tracks.toWithin
  positions := h.positions

theorem endingAt_eq (hp : p ∈ t.byStart) (hend : p.1 + p.2 = s) : t.endingAt s = p.2 := by
  rw [endingAt]
  cases hfind : t.byStart.find? fun p => p.1 + p.2 = s with
  | none => simpa [hend] using find?_eq_none.mp hfind p hp
  | some q =>
    have hq := mem_of_find?_eq_some hfind
    have hqs : q.1 + q.2 = s := by simpa using find?_some hfind
    have hppos := h.tracks.pos p hp
    have hqpos := h.tracks.pos q hq
    rcases lt_trichotomy p.1 q.1 with hlt | heq | hgt
    · have := h.tracks.separated p hp q hq hlt
      omega
    · rw [h.sorted.eq_of_key hp hq heq]
      rfl
    · have := h.tracks.separated q hq p hp hgt
      omega

theorem startingAt_eq (hp : p ∈ t.byStart) : t.startingAt p.1 = p.2 := by
  rw [startingAt, (get_eq_some h.sorted).mpr hp]
  rfl

theorem startingAt_nonneg (s : ℤ) : 0 ≤ t.startingAt s := by
  rw [startingAt]
  cases hget : get t.byStart s with
  | none => exact le_rfl
  | some k => exact (h.tracks.pos (s, k) ((get_eq_some h.sorted).mp hget)).le

theorem end_le (hp : p ∈ t.byStart) : p.1 + p.2 ≤ 2 ^ 63 := by
  have hpos := h.tracks.pos p hp
  have := h.positions (p.1 + p.2 - 1) (h.tracks.subset p hp ⟨by omega, by omega⟩)
  omega

theorem joinsLeft (hn : 0 < n) (hn' : n < 2 ^ 31) (hs : s < 2 ^ 63) (hout : Disjoint F s n)
    (hleft : JoinsLeft (gaps t.byStart) s n a k) : (k = n + t.endingAt s ∧ a + k = s + n ∧
        TracksBut (put (gaps t.byStart) a k) (addRange F s n) a) ∨
      2 ^ 31 ≤ n + t.endingAt s ∧ k < 0 ∧ a ∈ F := by
  have hend_eq : ∀ p ∈ t.byStart, p.1 < s → wrapInt64 (p.1 + p.2) = p.1 + p.2 := by
    intro p hp hlt
    have hpos := h.tracks.pos p hp
    have hstart := h.positions p.1 (h.tracks.start_mem p hp)
    rcases h.tracks.outside hn hout hp with hp | hp
    · exact wrapInt64_of_bounds (by omega) (by omega)
    · omega
  cases hleft with
  | alone halone =>
    have hend : ∀ p ∈ t.byStart, p.1 < s → p.1 + p.2 ≠ s := by
      intro p hp hlt hps
      refine halone p hp hlt (fun r hr hrs => ?_) ((hend_eq p hp hlt).trans hps)
      by_contra hpr
      have := h.tracks.separated p hp r hr (by omega)
      omega
    have hzero : t.endingAt s = 0 := by
      rw [endingAt]
      cases hfind : t.byStart.find? fun p => p.1 + p.2 = s with
      | none => rfl
      | some q =>
        have hq := mem_of_find?_eq_some hfind
        have hqs : q.1 + q.2 = s := by simpa using find?_some hfind
        have := h.tracks.pos q hq
        exact absurd hqs (hend q hq (by omega))
    exact .inl ⟨by omega, rfl, h.tracks.add hn hout hend⟩
  | @joined p hp hlt hadj =>
    rw [hend_eq p hp hlt] at hadj
    rw [h.endingAt_eq hp hadj]
    have hplt := (h.size_bounds p hp).2
    by_cases hfit : n + p.2 < 2 ^ 31
    · rw [wrapInt_of_bounds (by omega) hfit]
      exact .inl ⟨rfl, by omega, h.tracks.join_left hn hout hp hadj⟩
    · exact .inr ⟨by omega, wrapInt_neg (by omega) (by omega), h.tracks.start_mem p hp⟩

theorem joinsRight {F' : Set ℤ} (hF' : Positions F')
    (htracks : TracksBut (put (gaps t.byStart) a k) F' a) (hk : k < 2 ^ 31) (he : a + k = e)
    (hright : JoinsRight (gaps t.byStart) a k G') : (k + t.startingAt e < 2 ^ 31 ∧ Tracks G' F') ∨
      2 ^ 31 ≤ k + t.startingAt e ∧ ∃ q ∈ G', q.2 < 0 := by
  have hkpos : 0 < k := htracks.pos (a, k) (.inl rfl)
  have ha := hF' a (htracks.start_mem (a, k) (.inl rfl))
  have hnext : ∀ q ∈ t.byStart, a < q.1 → a + k ≤ q.1 := fun q hq hlt =>
    htracks.apart (a, k) (.inl rfl) q (.inr ⟨hq, hlt.ne'⟩) hlt
  have hend_eq : ∀ q ∈ t.byStart, a < q.1 → wrapInt64 (a + k) = a + k := by
    intro q hq hlt
    have := hnext q hq hlt
    have := h.positions q.1 (h.tracks.start_mem q hq)
    exact wrapInt64_of_bounds (by omega) (by omega)
  subst he
  cases hright with
  | alone halone =>
    have hne : ∀ q ∈ t.byStart, a < q.1 → a + k ≠ q.1 := by
      intro q hq hlt hadj
      refine halone q hq hlt (fun r hr har => ?_) ((hend_eq q hq hlt).trans hadj)
      have := hnext r hr har
      omega
    have hzero : t.startingAt (a + k) = 0 := by
      rw [startingAt]
      cases hget : get t.byStart (a + k) with
      | none => rfl
      | some v =>
        have hmem := (get_eq_some h.sorted).mp hget
        exact absurd rfl (hne _ hmem (by simp only; omega))
    exact .inl ⟨by omega, htracks.done hne⟩
  | @joined q hq hlt hadj =>
    rw [hend_eq q hq hlt] at hadj
    rw [hadj, h.startingAt_eq hq]
    have hqpos := h.tracks.pos q hq
    have hqlt := (h.size_bounds q hq).2
    by_cases hfit : k + q.2 < 2 ^ 31
    · rw [wrapInt_of_bounds (by omega) hfit]
      exact .inl ⟨hfit, htracks.join_right hq hadj⟩
    · exact .inr ⟨by omega, (a, wrapInt (k + q.2)), .inl rfl, wrapInt_neg (by omega) (by omega)⟩

theorem joinsRight_neg (ha : a ∈ F) (hk : -2 ^ 31 ≤ k ∧ k < 0)
    (hright : JoinsRight (gaps t.byStart) a k G') : ∃ q ∈ G', q.2 ≤ 0 := by
  cases hright with
  | alone _ => exact ⟨(a, k), .inl rfl, hk.2.le⟩
  | @joined q hq hlt hadj =>
    refine ⟨(a, wrapInt (k + q.2)), .inl rfl, ?_⟩
    have hqpos := h.tracks.pos q hq
    have hend := h.end_le hq
    have ha' := h.positions a ha
    -- the end is before the start, so it is the next gap only around the end of all positions
    have hwrap : wrapInt64 (a + k) = a + k + 2 ^ 64 := by
      by_cases hlow : -2 ^ 63 ≤ a + k
      · rw [wrapInt64_of_bounds hlow (by omega)] at hadj
        omega
      · have hperiod : wrapInt64 (a + k) = wrapInt64 (a + k + 2 ^ 64) :=
          (Int.add_bmod_right (a + k) (2 ^ 64)).symm
        rw [hperiod, wrapInt64_of_bounds (by omega) (by omega)]
    have hsum : k + q.2 ≤ 0 := by omega
    rw [wrapInt_of_bounds (by omega) (by omega)]
    exact hsum

/-- Adding a range keeps the gaps exact if the size of the joined gap fits; otherwise a gap
whose size is not positive is entered. -/
theorem addLocked (hn : 0 < n) (hn' : n < 2 ^ 31) (hout : Disjoint F s n) (hlo : -2 ^ 63 ≤ s)
    (hhi : s + n ≤ 2 ^ 63) : ∃ t', t.addLocked s n = .ok t' ∧
      (t.joinedSize s n < 2 ^ 31 → t'.Represents (addRange F s n)) ∧
      (2 ^ 31 ≤ t.joinedSize s n → ∃ q ∈ t'.byStart, q.2 ≤ 0) := by
  have hF' : Positions (addRange F s n) := by
    rintro x (hx | ⟨hsx, hxn⟩)
    · exact h.positions x hx
    · omega
  obtain ⟨a, k, t', hleft, hright, hadd, hsorted, hindexed, hempty⟩ :=
    addLocked_spec (n := n) h.toConsistent (h.tracks.start_ne hn hout)
  have hk := hleft.size_bounds hn hn'
  have hstarting := h.startingAt_nonneg (s + n)
  refine ⟨t', hadd, fun hfit => ?_, fun hover => ?_⟩
  · unfold joinedSize at hfit
    rcases h.joinsLeft hn hn' (by omega) hout hleft with ⟨hkeq, hend, htracks⟩ | ⟨hbig, -⟩
    · rcases h.joinsRight hF' htracks hk.2 hend hright with ⟨-, htracks'⟩ | ⟨hbig, -⟩
      · exact ⟨⟨hsorted, hindexed, hright.size_bounds hk h.size_bounds, hempty⟩, htracks', hF'⟩
      · omega
    · omega
  · unfold joinedSize at hover
    rcases h.joinsLeft hn hn' (by omega) hout hleft with ⟨hkeq, hend, htracks⟩ | ⟨-, hneg, ha⟩
    · rcases h.joinsRight hF' htracks hk.2 hend hright with ⟨hfit, -⟩ | ⟨-, q, hq, hneg⟩
      · omega
      · exact ⟨q, hq, hneg.le⟩
    · exact h.joinsRight_neg ha ⟨hk.1, hneg⟩ hright

theorem allocate (hn : 0 < n) : (t.allocate n = .ok (t, none) ∧ ∀ p ∈ t.byStart, p.2 < n) ∨
      ∃ p t', Smallest t.byStart n p ∧ t.allocate n = .ok (t', some p.1) ∧
        t'.Represents (takeRange F p.1 n) := by
  rcases allocate_spec h.toConsistent hn h.tracks.toWithin h.positions with
    hnone | ⟨p, t', hsmall, halloc, htakes, hsorted, hindexed, hempty⟩
  · exact .inl hnone
  have hsizes := htakes.size_bounds hn hsmall.mem h.size_bounds
  have htracks : Tracks (gaps t'.byStart) (takeRange F p.1 n) := by
    generalize gaps t'.byStart = G' at htakes
    cases htakes with
    | part hlt => exact h.tracks.take hsmall.mem hn hlt
    | all heq => exact heq ▸ h.tracks.take_all hsmall.mem
  exact .inr ⟨p, t', hsmall, halloc, ⟨hsorted, hindexed, hsizes, hempty⟩, htracks,
    fun x hx => h.positions x hx.1⟩

theorem wastedSpace : t.wastedSpace = wrapInt64 F.ncard := by
  have hempty : t.empty = true → F = ∅ := by
    intro hempty
    rw [h.empty_eq, List.isEmpty_iff] at hempty
    refine Set.eq_empty_of_forall_notMem fun x hx => ?_
    obtain ⟨p, hp, -⟩ := h.tracks.covers x hx
    rw [hempty] at hp
    exact not_mem_nil hp
  rw [GenericGapTracker.wastedSpace]
  split_ifs with he
  · rw [hempty he, Set.ncard_empty]
    rfl
  · rw [h.indexed.sum_sizes h.sorted.nodup, ← h.tracks.ncard_eq h.sorted.nodup]

end

end Represents

end AndroidEmu.RamSnapshot.GenericGapTracker
