import AndroidEmu.RamSnapshot.GapInvariant

/-!
# Runs of the generic gap tracker

A tracker stands for a set of free bytes, as long as ranges are added that are not free already and
there are no `2 ^ 31` free bytes in a row: neighbours are joined without a look at the sum.
-/

namespace AndroidEmu.RamSnapshot

open CS Math List

/-- The operations on a set of free bytes. Allocating fails if every gap is too small, and
otherwise takes the start of a smallest sufficient one. -/
def FreeSpace (F : Set ℤ) : GapOp → GapOutput → Set ℤ → Prop
  | .allocate n, o, F' =>
    (∀ a b, Gaps.IsGap F a b → b - a < n) ∧ o = .position none ∧ F' = F ∨
      ∃ a b, Gaps.IsGap F a b ∧ n ≤ b - a ∧ (∀ c d, Gaps.IsGap F c d → n ≤ d - c → b - a ≤ d - c) ∧
        o = .position (some a) ∧ F' = Gaps.takeRange F a n
  | .add s n, o, F' => o = .nothing ∧ F' = Gaps.addRange F s n
  | .wastedSpace, o, F' => o = .space F.ncard ∧ F' = F

namespace GenericGapTracker

variable {t : GenericGapTracker} {F : Set ℤ} {s n : ℤ}

/-- A range of positions whose size is a positive `int`. -/
def IsRange (s n : ℤ) : Prop := (0 < n ∧ n < 2 ^ 31) ∧ -2 ^ 63 ≤ s ∧ s + n ≤ 2 ^ 63

instance (s n : ℤ) : Decidable (IsRange s n) := inferInstanceAs (Decidable (_ ∧ _))

/-- Ranges are added that no gap overlaps, and sums of sizes fit their types: that of a joined
gap an `int`, and that of all gaps an `int64_t`. -/
def Proper (t : GenericGapTracker) : GapOp → Prop
  | .allocate n => 0 < n
  | .add s n => IsRange s n ∧ (∀ p ∈ t.byStart, p.1 + p.2 ≤ s ∨ s + n ≤ p.1) ∧
      t.joinedSize s n < 2 ^ 31
  | .wastedSpace => (t.byStart.map Prod.snd).sum < 2 ^ 63

instance (t : GenericGapTracker) : DecidablePred t.Proper
  | .allocate _ => inferInstanceAs (Decidable (_ < _))
  | .add _ _ => inferInstanceAs (Decidable (_ ∧ _))
  | .wastedSpace => inferInstanceAs (Decidable (_ < _))

theorem Represents.init : ({} : GenericGapTracker).Represents ∅ where
  sorted := .nil
  indexed := ⟨.nil, by simp, by simp, by simp⟩
  size_bounds := by simp
  empty_eq := rfl
  tracks := by
    convert Gaps.Tracks.empty
    simp [gaps]
  positions := by simp [Positions]

theorem Represents.disjoint (h : t.Represents F)
    (hout : ∀ p ∈ t.byStart, p.1 + p.2 ≤ s ∨ s + n ≤ p.1) : Gaps.Disjoint F s n := by
  rintro x ⟨hsx, hxn⟩ hx
  obtain ⟨p, hp, hpx, hxp⟩ := h.tracks.covers x hx
  rcases hout p hp with hp | hp <;> omega

theorem Represents.lt_iff (h : t.Represents F) :
    (∀ p ∈ t.byStart, p.2 < n) ↔ ∀ a b, Gaps.IsGap F a b → b - a < n := by
  constructor
  · intro hlt a b hgap
    have hmem : (a, b - a) ∈ gaps t.byStart := h.tracks.mem_iff.mpr (by rwa [add_sub_cancel])
    exact hlt _ hmem
  · intro hlt p hp
    have := hlt _ _ (h.tracks.isGap hp)
    omega

theorem Represents.step (h : t.Represents F) (op : GapOp) (hop : t.Proper op) :
    ∃ t' o F', t.step op = .ok (t', o) ∧ FreeSpace F op o F' ∧ t'.Represents F' := by
  cases op with
  | allocate n =>
    rcases h.allocate hop with ⟨halloc, hsmall⟩ | ⟨p, t', hsmallest, halloc, hrep⟩
    · exact ⟨t, _, F, by rw [GenericGapTracker.step, halloc]; rfl,
        .inl ⟨h.lt_iff.mp hsmall, rfl, rfl⟩, h⟩
    refine ⟨t', _, _, by rw [GenericGapTracker.step, halloc]; rfl, .inr
      ⟨p.1, p.1 + p.2, h.tracks.isGap hsmallest.mem, ?_, fun c d hgap hd => ?_, rfl, rfl⟩, hrep⟩
    · rw [add_sub_cancel_left]
      exact hsmallest.le
    · have hmem : (c, d - c) ∈ gaps t.byStart := h.tracks.mem_iff.mpr (by rwa [add_sub_cancel])
      rw [add_sub_cancel_left]
      exact hsmallest.least _ hmem hd
  | add s n =>
    obtain ⟨⟨⟨hn, hn'⟩, hlo, hhi⟩, hout, hfit⟩ := hop
    obtain ⟨t', hadd, hrep, -⟩ := h.addLocked hn hn' (h.disjoint hout) hlo hhi
    refine ⟨t', _, _, ?_, ⟨rfl, rfl⟩, hrep hfit⟩
    rw [GenericGapTracker.step, GenericGapTracker.add, if_neg (by omega), hadd]
    rfl
  | wastedSpace =>
    have hsum : (F.ncard : ℤ) < 2 ^ 63 := h.tracks.ncard_eq h.sorted.nodup ▸ hop
    have hspace := h.wastedSpace
    rw [wrapInt64_of_bounds (by omega) hsum] at hspace
    exact ⟨t, _, F, rfl, ⟨congrArg _ hspace, rfl⟩, h⟩

/-- A tracker follows the set of bytes that were added and not allocated. Its gaps are those of
the set, both maps hold them, and it knows whether there are any. -/
theorem run_tracks_free_space (ops : List GapOp)
    (hops : Meets GenericGapTracker.step Proper {} ops) :
    ∃ t F, (run GenericGapTracker.step {} ops).2 = .ok t ∧
      Follows FreeSpace ∅ ops (run GenericGapTracker.step {} ops).1 F ∧ t.Represents F :=
  run_follows (fun _ _ op h hop => h.step op hop) ops _ _ .init hops

/-- A gap is joined on both sides, and the smaller of two gaps is used first. -/
theorem run_tracks_free_space_joined :
    ∃ t F, (run GenericGapTracker.step {} [.add 0 10, .add 20 5, .add 10 10, .add 40 7,
        .allocate 6, .allocate 9, .wastedSpace]).2 = .ok t ∧
      Follows FreeSpace ∅ [.add 0 10, .add 20 5, .add 10 10, .add 40 7, .allocate 6, .allocate 9,
        .wastedSpace] [.nothing, .nothing, .nothing, .nothing, .position (some 40),
        .position (some 0), .space 17] F ∧ t.Represents F :=
  run_tracks_free_space [.add 0 10, .add 20 5, .add 10 10, .add 40 7, .allocate 6, .allocate 9,
    .wastedSpace] (by decide +kernel)

/-! ### Sizes that do not fit -/

def bytesOf (ranges : List Gap) : Set ℤ := {x | ∃ r ∈ ranges, x ∈ Set.Ico r.1 (r.1 + r.2)}

def adds (ranges : List Gap) : List GapOp := ranges.map fun r => .add r.1 r.2

/-- Ranges of positions that do not overlap. -/
def Apart (ranges : List Gap) : Prop :=
  (∀ r ∈ ranges, IsRange r.1 r.2) ∧ ranges.Pairwise fun r r' => r.1 + r.2 ≤ r'.1 ∨ r'.1 + r'.2 ≤ r.1

instance (ranges : List Gap) : Decidable (Apart ranges) := inferInstanceAs (Decidable (_ ∧ _))

/-- Every gap has the size it is kept with, in both maps. -/
structure SizesExact (t : GenericGapTracker) (F : Set ℤ) : Prop where
  byStart : ∀ s k, (s, k) ∈ t.byStart → Gaps.IsGap F s (s + k)
  bySize : ∀ k l, (k, l) ∈ t.bySize → ∀ s ∈ l, Gaps.IsGap F s (s + k)

theorem Represents.sizesExact (h : t.Represents F) : t.SizesExact F where
  byStart _ _ hp := h.tracks.isGap hp
  bySize k l hl s hs := h.tracks.isGap ((h.indexed.mem_iff s k).mpr ⟨l, hl, hs⟩)

theorem bytesOf_append (ranges : List Gap) (r : Gap) :
    bytesOf (ranges ++ [r]) = Gaps.addRange (bytesOf ranges) r.1 r.2 := by
  ext x
  simp only [bytesOf, Gaps.addRange, mem_append, mem_singleton, Set.mem_ofPred_eq, Set.mem_union]
  constructor
  · rintro ⟨q, hq | rfl, hx⟩
    · exact .inl ⟨q, hq, hx⟩
    · exact .inr hx
  · rintro (⟨q, hq, hx⟩ | hx)
    · exact ⟨q, .inl hq, hx⟩
    · exact ⟨r, .inr rfl, hx⟩

theorem Apart.disjoint {ranges : List Gap} {r : Gap} (h : Apart (ranges ++ [r])) :
    Apart ranges ∧ IsRange r.1 r.2 ∧ Gaps.Disjoint (bytesOf ranges) r.1 r.2 := by
  obtain ⟨hrange, hapart⟩ := h
  rw [pairwise_append] at hapart
  refine ⟨⟨fun q hq => hrange q (by simp [hq]), hapart.1⟩, hrange r (by simp), ?_⟩
  rintro x ⟨hrx, hxr⟩ ⟨q, hq, hqx, hxq⟩
  rcases hapart.2.2 q hq r (by simp) with hqr | hrq <;> omega

theorem run_adds_append {ranges : List Gap} {r : Gap} (hapart : Apart (ranges ++ [r]))
    (hrun : (run GenericGapTracker.step {} (adds ranges)).2 = .ok t)
    (h : t.Represents (bytesOf ranges)) :
    ∃ t', (run GenericGapTracker.step {} (adds (ranges ++ [r]))).2 = .ok t' ∧
      (t.joinedSize r.1 r.2 < 2 ^ 31 → t'.Represents (bytesOf (ranges ++ [r]))) ∧
      (2 ^ 31 ≤ t.joinedSize r.1 r.2 → ∃ q ∈ t'.byStart, q.2 ≤ 0) := by
  obtain ⟨-, ⟨⟨hn, hn'⟩, hlo, hhi⟩, hout⟩ := hapart.disjoint
  obtain ⟨t', hadd, hfits, hover⟩ := h.addLocked hn hn' hout hlo hhi
  refine ⟨t', ?_, by rwa [bytesOf_append], hover⟩
  have hstep : t.step (.add r.1 r.2) = .ok (t', .nothing) := by
    rw [GenericGapTracker.step, GenericGapTracker.add, if_neg (by omega), hadd]
    rfl
  have hadds : adds (ranges ++ [r]) = adds ranges ++ [.add r.1 r.2] := map_append
  rw [hadds, run_append _ _ hrun, run_cons_ok hstep]
  rfl

theorem Represents.joined_subset (h : t.Represents F) (s n : ℤ) :
    Set.Ico (s - t.endingAt s) (s - t.endingAt s + t.joinedSize s n) ⊆ Gaps.addRange F s n := by
  rintro x ⟨hlo, hhi⟩
  unfold joinedSize at hhi
  by_cases hxs : x < s
  · left
    cases hfind : t.byStart.find? fun p => p.1 + p.2 = s with
    | none =>
      rw [endingAt, hfind, Option.map_none, Option.getD_none] at hlo
      omega
    | some p =>
      have hp := mem_of_find?_eq_some hfind
      have hps : p.1 + p.2 = s := by simpa using find?_some hfind
      rw [h.endingAt_eq hp hps] at hlo
      exact h.tracks.subset p hp ⟨by omega, by omega⟩
  · by_cases hxn : x < s + n
    · exact .inr ⟨by omega, hxn⟩
    left
    cases hget : OrderedMap.get t.byStart (s + n) with
    | none =>
      rw [startingAt, hget, Option.getD_none] at hhi
      omega
    | some k =>
      rw [startingAt, hget, Option.getD_some] at hhi
      have hp := (OrderedMap.get_eq_some h.sorted).mp hget
      exact h.tracks.subset (s + n, k) hp ⟨by simp only; omega, by simp only; omega⟩

/-- No gap is larger than an `int` can say. -/
def Fits (F : Set ℤ) : Prop := ¬ ∃ a, Set.Ico a (a + 2 ^ 31) ⊆ F

theorem Fits.mono {F' : Set ℤ} (h : Fits F') (hsub : F ⊆ F') : Fits F :=
  fun ⟨a, ha⟩ => h ⟨a, ha.trans hsub⟩

theorem Represents.fits (h : t.Represents F) : Fits F := by
  rintro ⟨a, ha⟩
  obtain ⟨p, hp, hpa, hap⟩ := h.tracks.covers a (ha ⟨le_rfl, by omega⟩)
  have hsize := (h.size_bounds p hp).2
  exact (h.tracks.isGap hp).after (ha ⟨by omega, by omega⟩)

theorem run_adds_of_fits (ranges : List Gap) : Apart ranges → Fits (bytesOf ranges) →
      ∃ t, (run GenericGapTracker.step {} (adds ranges)).2 = .ok t ∧
        t.Represents (bytesOf ranges) := by
  induction ranges using List.reverseRecOn with
  | nil =>
    intro _ _
    refine ⟨{}, rfl, ?_⟩
    convert Represents.init
    simp [bytesOf]
  | append_singleton ranges r ih =>
    intro hapart hfits
    have hmono : bytesOf ranges ⊆ bytesOf (ranges ++ [r]) := by
      rw [bytesOf_append]
      exact Set.subset_union_left
    obtain ⟨t, hrun, hrep⟩ := ih hapart.disjoint.1 (hfits.mono hmono)
    obtain ⟨t', hrun', hrep', -⟩ := run_adds_append hapart hrun hrep
    refine ⟨t', hrun', hrep' ?_⟩
    -- a joined gap that is too large has too many bytes in a row
    by_contra hover
    have hjoined := hrep.joined_subset r.1 r.2
    rw [← bytesOf_append] at hjoined
    exact hfits ⟨_, (Set.Ico_subset_Ico_right (by omega)).trans hjoined⟩

/-- The sizes are exact after each of the calls. -/
def AlwaysExact (ranges : List Gap) : Prop :=
  ∀ first, first <+: ranges → (run GenericGapTracker.step {} (adds first)).2.Ensures
    (fun t => t.SizesExact (bytesOf first)) (fun _ => False)

theorem run_adds_of_alwaysExact (ranges : List Gap) : Apart ranges → AlwaysExact ranges →
      ∃ t, (run GenericGapTracker.step {} (adds ranges)).2 = .ok t ∧
        t.Represents (bytesOf ranges) := by
  induction ranges using List.reverseRecOn with
  | nil =>
    intro hapart _
    exact run_adds_of_fits [] hapart fun ⟨a, ha⟩ => by
      simpa [bytesOf] using ha (Set.left_mem_Ico.mpr (by omega : a < a + 2 ^ 31))
  | append_singleton ranges r ih =>
    intro hapart hexact
    obtain ⟨t, hrun, hrep⟩ := ih hapart.disjoint.1 fun first hfirst =>
      hexact first (hfirst.trans (prefix_append _ _))
    obtain ⟨t', hrun', hrep', hover⟩ := run_adds_append hapart hrun hrep
    refine ⟨t', hrun', hrep' ?_⟩
    by_contra hbig
    obtain ⟨q, hq, hneg⟩ := hover (by omega)
    have hlt := (((hexact _ prefix_rfl).of_ok hrun').byStart q.1 q.2 hq).lt
    omega

/-- Sizes of ranges that do not overlap stay exact if and only if there are never `2 ^ 31` free
bytes in a row. -/
theorem sizes_exact_iff (ranges : List Gap) (hapart : Apart ranges) :
    AlwaysExact ranges ↔ Fits (bytesOf ranges) := by
  constructor
  · intro hexact
    obtain ⟨t, -, hrep⟩ := run_adds_of_alwaysExact ranges hapart hexact
    exact hrep.fits
  · rintro hfits first ⟨rest, rfl⟩
    have hmono : bytesOf first ⊆ bytesOf (first ++ rest) :=
      fun x ⟨r, hr, hx⟩ => ⟨r, mem_append_left _ hr, hx⟩
    have hapart' : Apart first :=
      ⟨fun r hr => hapart.1 r (mem_append_left _ hr), (pairwise_append.mp hapart.2).1⟩
    obtain ⟨t, hrun, hrep⟩ := run_adds_of_fits first hapart' (hfits.mono hmono)
    rw [hrun]
    exact hrep.sizesExact

/-- Two neighbours of small size. -/
theorem sizes_exact_iff_neighbours : AlwaysExact [(8, 100), (108, 20)] := by
  refine (sizes_exact_iff [(8, 100), (108, 20)] (by decide)).mpr ?_
  rintro ⟨a, ha⟩
  have hlo : a ∈ bytesOf [(8, 100), (108, 20)] := ha ⟨le_rfl, by omega⟩
  have hhi : a + 2 ^ 31 - 1 ∈ bytesOf [(8, 100), (108, 20)] := ha ⟨by omega, by omega⟩
  simp [bytesOf] at hlo hhi
  omega

/-- The largest size and one byte more: the joined gap is kept with a negative size. -/
theorem add_overflows_size : Apart [(0, 2 ^ 31 - 1), (2 ^ 31 - 1, 1)] ∧
      (run GenericGapTracker.step {} (adds [(0, 2 ^ 31 - 1), (2 ^ 31 - 1, 1)])).2 =
        .ok { byStart := [(0, -2 ^ 31)], bySize := [(-2 ^ 31, [0])], empty := false } ∧
      ¬ AlwaysExact [(0, 2 ^ 31 - 1), (2 ^ 31 - 1, 1)] := by
  have hrun : (run GenericGapTracker.step {} (adds [(0, 2 ^ 31 - 1), (2 ^ 31 - 1, 1)])).2 =
      .ok { byStart := [(0, -2 ^ 31)], bySize := [(-2 ^ 31, [0])], empty := false } := by
    decide +kernel
  refine ⟨by decide, hrun, fun hexact => ?_⟩
  have hlt := (((hexact _ prefix_rfl).of_ok hrun).byStart 0 (-2 ^ 31) (by simp)).lt
  omega

/-! ### Order -/

theorem Represents.byStart_eq {t' : GenericGapTracker} (h : t.Represents F)
    (h' : t'.Represents F) : t.byStart = t'.byStart := by
  refine h.sorted.ext h'.sorted fun p => ?_
  have hp := h.tracks.mem_iff (a := p.1) (k := p.2)
  rw [← h'.tracks.mem_iff] at hp
  exact hp

/-- Ranges that do not overlap are joined to the same gaps in whatever order they are added. -/
theorem gaps_eq_of_perm (ranges ranges' : List Gap) (hperm : ranges.Perm ranges')
    (hapart : Apart ranges) (hfits : Fits (bytesOf ranges)) :
    ∃ t t', (run GenericGapTracker.step {} (adds ranges)).2 = .ok t ∧
      (run GenericGapTracker.step {} (adds ranges')).2 = .ok t' ∧ t.byStart = t'.byStart := by
  have hbytes : bytesOf ranges = bytesOf ranges' := by
    ext x
    simp [bytesOf, hperm.mem_iff]
  have hapart' : Apart ranges' :=
    ⟨fun r hr => hapart.1 r (hperm.mem_iff.mpr hr), hperm.pairwise hapart.2 fun h => h.symm⟩
  obtain ⟨t, hrun, hrep⟩ := run_adds_of_fits ranges hapart hfits
  obtain ⟨t', hrun', hrep'⟩ := run_adds_of_fits ranges' hapart' (hbytes ▸ hfits)
  exact ⟨t, t', hrun, hrun', hrep.byStart_eq (hbytes ▸ hrep')⟩

/-- Three neighbours, the middle one last. -/
theorem gaps_eq_of_perm_three : ∃ t t',
    (run GenericGapTracker.step {} (adds [(0, 8), (8, 4), (12, 4)])).2 = .ok t ∧
      (run GenericGapTracker.step {} (adds [(12, 4), (0, 8), (8, 4)])).2 = .ok t' ∧
      t.byStart = t'.byStart := by
  refine gaps_eq_of_perm _ _ (by decide) (by decide) ?_
  rintro ⟨a, ha⟩
  have hlo : a ∈ bytesOf [(0, 8), (8, 4), (12, 4)] := ha ⟨le_rfl, by omega⟩
  have hhi : a + 2 ^ 31 - 1 ∈ bytesOf [(0, 8), (8, 4), (12, 4)] := ha ⟨by omega, by omega⟩
  simp [bytesOf] at hlo hhi
  omega

end GenericGapTracker

end AndroidEmu.RamSnapshot
