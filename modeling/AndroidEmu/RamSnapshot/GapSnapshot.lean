import AndroidEmu.CS.PackedNum
import AndroidEmu.RamSnapshot.GapInvariant

/-!
# Saving and loading gap trackers

A `GenericGapTracker` is restored unless writing or reading stops at an assertion: a gap has size
zero, which happens after the size of a gap has overflowed, or two positions are `2 ^ 63` apart. A
`OneSizeGapTracker` forgets its size when it is saved without gaps.
-/

namespace AndroidEmu.RamSnapshot

open CS Math Checked List OrderedMap Except

/-! ### Positions -/

def putDeltas : ℤ → List ℤ → Checked Bytes
  | _, [] => .ok []
  | pos, newPos :: starts => do
    let delta ← putPackedSignedNum (wrapInt64 (newPos - pos))
    let rest ← putDeltas newPos starts
    return delta ++ rest

/-- The number of positions, the first one and the differences. -/
def putPositions (starts : List ℤ) : Checked Bytes :=
  match starts with
  | [] => .error .outOfBounds
  | pos :: rest => do
    let deltas ← putDeltas pos rest
    return putPackedNum (wrapNat 64 starts.length) ++ putBe 8 (toUInt64 pos) ++ deltas

def getDeltas : ℕ → ℤ → Bytes → List ℤ × Bytes
  | 0, _, bs => ([], bs)
  | n + 1, pos, bs =>
    let delta := getPackedSignedNum bs
    let newPos := wrapInt64 (pos + delta.1)
    let rest := getDeltas n newPos delta.2
    (newPos :: rest.1, rest.2)

/-- Read positions. They are counted by an `int`. -/
def getPositions (bs : Bytes) : Checked (List ℤ × Bytes) := do
  let posCount := getPackedNum bs
  check (posCount.1 ≠ 0)
  let pos := getBe 8 posCount.2
  let rest := getDeltas (posCount.1 - 1) (wrapInt64 pos.1) pos.2
  if posCount.1 < 2 ^ 31 then return (wrapInt64 pos.1 :: rest.1, rest.2)
  else .error .overflow

def IsPosition (s : ℤ) : Prop := -2 ^ 63 ≤ s ∧ s < 2 ^ 63

instance (s : ℤ) : Decidable (IsPosition s) := inferInstanceAs (Decidable (_ ∧ _))

theorem IsPosition.wrap {s : ℤ} (h : IsPosition s) : wrapInt64 s = s := wrapInt64_of_bounds h.1 h.2

/-- The difference of two positions can be packed. -/
def Near (a b : ℤ) : Prop := b - a ≠ 2 ^ 63 ∧ a - b ≠ 2 ^ 63

instance (a b : ℤ) : Decidable (Near a b) := inferInstanceAs (Decidable (_ ∧ _))

theorem near_iff {a b : ℤ} (ha : IsPosition a) (hb : IsPosition b) :
    Near a b ↔ wrapInt64 (b - a) ≠ -2 ^ 63 := by
  obtain ⟨halo, hahi⟩ := ha
  obtain ⟨hblo, hbhi⟩ := hb
  have hadd : wrapInt64 (b - a) = wrapInt64 (b - a + 2 ^ 64) :=
    (Int.add_bmod_right (b - a) (2 ^ 64)).symm
  have hsub : wrapInt64 (b - a) = wrapInt64 (b - a - 2 ^ 64) :=
    (Int.sub_bmod_right (b - a) (2 ^ 64)).symm
  unfold Near
  rcases lt_or_ge (b - a) (-2 ^ 63) with hlt | hge
  · rw [hadd, wrapInt64_of_bounds (by omega) (by omega)]
    omega
  rcases lt_or_ge (b - a) (2 ^ 63) with hlt | hge'
  · rw [wrapInt64_of_bounds hge hlt]
    omega
  · rw [hsub, wrapInt64_of_bounds (by omega) (by omega)]
    omega

theorem putDeltas_spec {pos : ℤ} {starts : List ℤ} (hpos : ∀ s ∈ pos :: starts, IsPosition s)
    (hnear : (pos :: starts).IsChain Near) : ∃ bytes, putDeltas pos starts = .ok bytes ∧
      ∀ rest, getDeltas starts.length pos (bytes ++ rest) = (starts, rest) := by
  induction starts generalizing pos with
  | nil => exact ⟨[], rfl, fun rest => rfl⟩
  | cons newPos starts ih =>
    obtain ⟨hhead, htail⟩ := isChain_cons_cons.mp hnear
    have hnew := hpos newPos (by simp)
    have hne := (near_iff (hpos pos (by simp)) hnew).mp hhead
    obtain ⟨hlo, hhi⟩ := wrapInt64_bounds (newPos - pos)
    obtain ⟨delta, hput, hget⟩ := putPackedSignedNum_spec (lt_of_le_of_ne hlo hne.symm) hhi
    obtain ⟨bytes, hputs, hgets⟩ := ih (fun s hs => hpos s (mem_cons_of_mem pos hs)) htail
    refine ⟨delta ++ bytes, by rw [putDeltas, hput, ok_bind, hputs]; rfl, fun rest => ?_⟩
    have hsum : wrapInt64 (pos + wrapInt64 (newPos - pos)) = newPos := by
      rw [wrapInt64_add_wrapInt64, add_sub_cancel, hnew.wrap]
    simp only [length_cons, getDeltas, append_assoc, hget, hsum, hgets]

theorem putDeltas_of_far {pos : ℤ} {starts : List ℤ} (hpos : ∀ s ∈ pos :: starts, IsPosition s)
    (hfar : ¬ (pos :: starts).IsChain Near) : putDeltas pos starts = .error .assertion := by
  induction starts generalizing pos with
  | nil => exact absurd (isChain_singleton pos) hfar
  | cons newPos starts ih =>
    have hiff := near_iff (hpos pos (by simp)) (hpos newPos (by simp))
    rw [putDeltas]
    by_cases hhead : wrapInt64 (newPos - pos) = -2 ^ 63
    · rw [hhead, putPackedSignedNum_min]
      rfl
    obtain ⟨hlo, hhi⟩ := wrapInt64_bounds (newPos - pos)
    obtain ⟨delta, hput, -⟩ := putPackedSignedNum_spec (lt_of_le_of_ne hlo (Ne.symm hhead)) hhi
    have htail := ih (fun s hs => hpos s (mem_cons_of_mem pos hs)) fun htail =>
      hfar (isChain_cons_cons.mpr ⟨hiff.mpr hhead, htail⟩)
    rw [hput, htail]
    rfl

theorem putPositions_spec {starts : List ℤ} (hne : starts ≠ [])
    (hpos : ∀ s ∈ starts, IsPosition s) (hlen : starts.length ≤ 2 ^ 64) :
    (¬ starts.IsChain Near ∧ putPositions starts = .error .assertion) ∨
      (starts.IsChain Near ∧ ∃ bytes, putPositions starts = .ok bytes ∧
        (starts.length < 2 ^ 31 → ∀ rest, getPositions (bytes ++ rest) = .ok (starts, rest)) ∧
        (2 ^ 31 ≤ starts.length → ∀ rest, ∃ f, getPositions (bytes ++ rest) = .error f)) := by
  obtain ⟨pos, starts, rfl⟩ := exists_cons_of_ne_nil hne
  by_cases hnear : (pos :: starts).IsChain Near
  · right
    obtain ⟨bytes, hput, hget⟩ := putDeltas_spec hpos hnear
    refine ⟨hnear, _, by rw [putPositions, hput]; rfl, fun hlt rest => ?_, fun hge rest => ?_⟩
    · rw [wrapNat_of_lt (by omega)]
      simp only [getPositions, append_assoc]
      rw [getPackedNum_putPackedNum (by omega), check_of (by simp), ok_bind,
        getBe_putBe 8 (lt_pow_bytes (toUInt64_lt pos))]
      simp only [wrapInt64_toUInt64, (hpos pos (by simp)).wrap, length_cons,
        Nat.add_sub_cancel, hget]
      exact if_pos hlt
    · simp only [getPositions, append_assoc]
      rw [getPackedNum_putPackedNum (wrapNat_lt 64 _)]
      by_cases hzero : wrapNat 64 (pos :: starts).length = 0
      · exact ⟨_, by rw [check_of_not (by simpa using hzero)]; rfl⟩
      refine ⟨.overflow, ?_⟩
      have hcount : wrapNat 64 (pos :: starts).length = (pos :: starts).length := by
        refine wrapNat_of_lt (lt_of_le_of_ne hlen fun heq => hzero ?_)
        rw [heq]
        rfl
      rw [check_of hzero]
      exact if_neg (by omega)
  · refine .inl ⟨hnear, ?_⟩
    rw [putPositions, putDeltas_of_far hpos hnear]
    rfl

theorem length_le_of_nodup {xs : List ℤ} (hxs : xs.Nodup) {a b : ℤ}
    (hmem : ∀ x ∈ xs, a ≤ x ∧ x < b) : xs.length ≤ (b - a).toNat := by
  rw [← toFinset_card_of_nodup hxs, ← Int.card_Ico]
  refine Finset.card_le_card fun x hx => ?_
  exact Finset.mem_Ico.mpr (hmem x (List.mem_toFinset.mp hx))

/-! ### Gaps of any size -/

namespace GenericGapTracker

variable {t t' : GenericGapTracker} {s n : ℤ}

/-- The lists by size, in the order of the sizes. -/
def saveGroups : List (ℤ × List ℤ) → Checked Bytes
  | [] => .ok []
  | (size, starts) :: groups => do
    let positions ← putPositions starts
    let rest ← saveGroups groups
    return putPackedNum (toUInt64 size) ++ positions ++ rest

def save (t : GenericGapTracker) : Checked Bytes := do
  let groups ← saveGroups t.bySize
  return putBe 4 (wrapNat 32 t.bySize.length) ++ groups

/-- Enter positions with a size. -/
def enterAll (t : GenericGapTracker) (size : ℤ) (starts : List ℤ) : GenericGapTracker :=
  starts.foldl (fun t pos => t.enter pos size) t

def loadGroups : ℕ → GenericGapTracker → Bytes → Checked (GenericGapTracker × Bytes)
  | 0, t, bs => .ok (t, bs)
  | n + 1, t, bs => do
    let size := getPackedNum bs
    check (wrapInt size.1 ≠ 0)
    let starts ← getPositions size.2
    loadGroups n (t.enterAll (wrapInt size.1) starts.1) starts.2

/-- `load` into a new tracker. Groups are counted by an `int`. -/
def load (bs : Bytes) : Checked (GenericGapTracker × Bytes) := do
  let gapsCount := getBe 4 bs
  let (t, rest) ← loadGroups (min gapsCount.1 (2 ^ 31)) {} gapsCount.2
  if gapsCount.1 < 2 ^ 31 then return ({ t with empty := t.byStart.isEmpty }, rest)
  else .error .overflow

def reload (t : GenericGapTracker) : Checked GenericGapTracker := do
  let bytes ← t.save
  let (t, _) ← load bytes
  return t

/-- Gaps end at a position, or after the last one, and do not overlap. -/
def NoOverlap (t : GenericGapTracker) : Prop :=
  ∀ p ∈ t.byStart, p.1 + p.2 ≤ 2 ^ 63 ∧ ∀ q ∈ t.byStart, p.1 < q.1 → p.1 + p.2 ≤ q.1

instance (t : GenericGapTracker) : Decidable t.NoOverlap :=
  inferInstanceAs (Decidable (∀ p ∈ t.byStart, _))

/-- The trackers that are reached. A range is added where no gap starts, as `addLocked` demands, and
gaps are allocated while they do not overlap. Sizes may have overflowed. -/
inductive Reachable : GenericGapTracker → Prop
  | init : Reachable {}
  | add {t t' : GenericGapTracker} {s n : ℤ} (h : Reachable t) (hs : IsPosition s)
      (hn : -2 ^ 31 ≤ n ∧ n < 2 ^ 31) (hfresh : ∀ p ∈ t.byStart, p.1 ≠ s)
      (hadd : t.add s n = .ok t') : Reachable t'
  | allocate {t t' : GenericGapTracker} {n : ℤ} {pos : Option ℤ} (h : Reachable t) (hn : 0 < n)
      (hgaps : t.NoOverlap) (halloc : t.allocate n = .ok (t', pos)) : Reachable t'
  | reload {t t' : GenericGapTracker} (h : Reachable t) (hload : t.reload = .ok t') : Reachable t'

/-- What is loaded as it was: no gap has size zero, consecutive positions of a size are not
`2 ^ 63` apart, and an `int` counts the sizes and the positions of each. -/
def Storable (t : GenericGapTracker) : Prop :=
  (∀ g ∈ t.bySize, g.1 ≠ 0 ∧ g.2.IsChain Near ∧ g.2.length < 2 ^ 31) ∧ t.bySize.length < 2 ^ 31

instance (t : GenericGapTracker) : Decidable t.Storable := inferInstanceAs (Decidable (_ ∧ _))

/-- A size and its positions. -/
structure IsGroup (g : ℤ × List ℤ) : Prop where
  size_bounds : -2 ^ 31 ≤ g.1 ∧ g.1 < 2 ^ 31
  ne_nil : g.2 ≠ []
  isPosition : ∀ s ∈ g.2, IsPosition s
  length_le : g.2.length ≤ 2 ^ 64

/-- Groups that follow each other have increasing sizes and no common position. -/
def InOrder (g g' : ℤ × List ℤ) : Prop := g.1 < g'.1 ∧ ∀ s ∈ g.2, s ∉ g'.2

/-- The maps agree, and the gaps start at positions. -/
structure Valid (t : GenericGapTracker) : Prop extends t.Consistent where
  isPosition : ∀ p ∈ t.byStart, IsPosition p.1

namespace Valid

theorem add (h : t.Valid) (hs : IsPosition s) (hn : -2 ^ 31 ≤ n ∧ n < 2 ^ 31)
    (hfresh : ∀ p ∈ t.byStart, p.1 ≠ s) (hadd : t.add s n = .ok t') : t'.Valid := by
  rw [GenericGapTracker.add] at hadd
  split_ifs at hadd with hpos
  · obtain rfl := ok.inj hadd
    exact h
  obtain ⟨a, k, t1, hleft, hright, hadd', hsorted, hindexed, hempty⟩ :=
    addLocked_spec (n := n) h.toConsistent hfresh
  obtain rfl : t1 = t' := ok.inj (hadd'.symm.trans hadd)
  have ha : IsPosition a := by
    cases hleft with
    | alone _ => exact hs
    | joined hp _ _ => exact h.isPosition _ hp
  have hk := hleft.size_bounds (by omega) hn.2
  refine ⟨⟨hsorted, hindexed, hright.size_bounds hk h.size_bounds, hempty⟩, ?_⟩
  change ∀ p ∈ gaps t1.byStart, IsPosition p.1
  generalize gaps t1.byStart = G' at hright
  cases hright with
  | alone _ =>
    rintro p (rfl | hp)
    · exact ha
    · exact h.isPosition p hp.1
  | joined _ _ _ =>
    rintro p (rfl | hp)
    · exact ha
    · exact h.isPosition p hp.1.1

theorem allocate (h : t.Valid) (hn : 0 < n) (hgaps : t.NoOverlap) {pos : Option ℤ}
    (halloc : t.allocate n = .ok (t', pos)) : t'.Valid := by
  -- the gaps are within the set of their bytes
  let F : Set ℤ := {x | ∃ p ∈ t.byStart, x = p.1 ∨ x ∈ Set.Ico p.1 (p.1 + p.2)}
  have hwithin : Gaps.Within (gaps t.byStart) F :=
    { start_mem := fun p hp => ⟨p, hp, .inl rfl⟩
      subset := fun p hp x hx => ⟨p, hp, .inr hx⟩
      eq_of_start := h.keyed
      apart := fun p hp => (hgaps p hp).2 }
  have hpositions : Positions F := by
    rintro x ⟨p, hp, rfl | hx⟩
    · exact h.isPosition p hp
    · have hlo := (h.isPosition p hp).1
      have hhi := (hgaps p hp).1
      have := hx.1
      have := hx.2
      omega
  rcases allocate_spec h.toConsistent hn hwithin hpositions with
    ⟨hnone, -⟩ | ⟨p, t1, hsmall, halloc', htakes, hsorted, hindexed, hempty⟩
  · obtain ⟨rfl, -⟩ := Prod.mk.inj (ok.inj (hnone.symm.trans halloc))
    exact h
  obtain ⟨rfl, -⟩ := Prod.mk.inj (ok.inj (halloc'.symm.trans halloc))
  have hsizes := htakes.size_bounds hn hsmall.mem h.size_bounds
  refine ⟨⟨hsorted, hindexed, hsizes, hempty⟩, ?_⟩
  change ∀ p ∈ gaps t1.byStart, IsPosition p.1
  generalize gaps t1.byStart = G' at htakes
  cases htakes with
  | part hlt =>
    rintro q (rfl | hq)
    · exact hpositions _ ⟨p, hsmall.mem, .inr ⟨by simp only; omega, by simp only; omega⟩⟩
    · exact h.isPosition q hq.1.1
  | all _ => exact fun q hq => h.isPosition q hq.1

theorem isGroup (h : t.Valid) : ∀ g ∈ t.bySize, IsGroup g := by
  rintro ⟨k, l⟩ hl
  have hmem : ∀ s ∈ l, (s, k) ∈ t.byStart := fun s hs => (h.indexed.mem_iff s k).mpr ⟨l, hl, hs⟩
  have hpos : ∀ s ∈ l, IsPosition s := fun s hs => h.isPosition _ (hmem s hs)
  have hne := h.indexed.ne_nil k l hl
  obtain ⟨s, hs⟩ := exists_mem_of_ne_nil l hne
  exact ⟨h.size_bounds _ (hmem s hs), hne, hpos, length_le_of_nodup (h.indexed.nodup k l hl) hpos⟩

theorem pairwise_inOrder (h : t.Valid) : t.bySize.Pairwise InOrder := by
  refine h.indexed.sorted.imp_of_mem fun {g g'} hg hg' hlt => ⟨hlt, fun s hs hs' => ?_⟩
  have hmem : (s, g.1) ∈ t.byStart := (h.indexed.mem_iff s g.1).mpr ⟨g.2, hg, hs⟩
  have hmem' : (s, g'.1) ∈ t.byStart := (h.indexed.mem_iff s g'.1).mpr ⟨g'.2, hg', hs'⟩
  exact hlt.ne (congrArg Prod.snd (h.sorted.eq_of_key hmem hmem' rfl))

theorem sizes_nodup (h : t.Valid) : (t.bySize.map Prod.fst).Nodup := by
  have hlt : (t.bySize.map Prod.fst).Pairwise (· < ·) := pairwise_map.mpr h.indexed.sorted
  exact hlt.imp fun hlt => hlt.ne

end Valid

variable {groups : List (ℤ × List ℤ)} {size c : ℤ}

theorem enterAll_bySize {starts l : List ℤ}
    (hlt : ∀ g ∈ groups, g.1 < size) (ht : t.bySize = groups ++ [(size, l)]) :
    (t.enterAll size starts).bySize = groups ++ [(size, l ++ starts)] := by
  induction starts generalizing t l with
  | nil => rw [append_nil]; exact ht
  | cons pos starts ih =>
    have henter : (t.enter pos size).bySize = groups ++ [(size, l ++ [pos])] := by
      rw [enter]
      simp only [ht, get_append_singleton hlt, Option.getD_some, set_append_singleton hlt]
    exact (ih henter).trans (by rw [append_assoc]; rfl)

theorem mem_enterAll_byStart {starts : List ℤ} (hsorted : OrderedMap.Sorted t.byStart) :
    OrderedMap.Sorted (t.enterAll size starts).byStart ∧ ∀ p, p ∈ (t.enterAll size starts).byStart ↔
        p.1 ∈ starts ∧ p.2 = size ∨ p ∈ t.byStart ∧ p.1 ∉ starts := by
  induction starts generalizing t with
  | nil => exact ⟨hsorted, fun p => by simp [enterAll]⟩
  | cons pos starts ih =>
    obtain ⟨hsorted', hmem⟩ := @ih (t.enter pos size) (hsorted.set pos size)
    refine ⟨hsorted', fun p => (hmem p).trans ?_⟩
    have hset : p ∈ (t.enter pos size).byStart ↔ p = (pos, size) ∨ p ∈ t.byStart ∧ p.1 ≠ pos :=
      mem_set hsorted
    rw [hset, Prod.ext_iff, mem_cons]
    tauto

def gapsOf (groups : List (ℤ × List ℤ)) : Set Gap := {p | ∃ l, (p.2, l) ∈ groups ∧ p.1 ∈ l}

/-- A tracker into which groups were loaded. -/
structure Loaded (t : GenericGapTracker) (groups : List (ℤ × List ℤ)) : Prop where
  bySize : t.bySize = groups
  sorted : OrderedMap.Sorted t.byStart
  mem_iff : ∀ p, p ∈ t.byStart ↔ p ∈ gapsOf groups

theorem Loaded.enterAll {starts : List ℤ}
    (h : t.Loaded groups) (hne : starts ≠ []) (horder : ∀ g ∈ groups, InOrder g (size, starts)) :
    (t.enterAll size starts).Loaded (groups ++ [(size, starts)]) := by
  have hlt : ∀ g ∈ groups, g.1 < size := fun g hg => (horder g hg).1
  obtain ⟨hsorted, hmem⟩ := @mem_enterAll_byStart t size starts h.sorted
  refine ⟨?_, hsorted, fun p => (hmem p).trans ?_⟩
  · obtain ⟨pos, starts, rfl⟩ := exists_cons_of_ne_nil hne
    have henter : (t.enter pos size).bySize = groups ++ [(size, [pos])] := by
      have hget : get groups size = none :=
        get_eq_none.mpr fun g hg => (hlt g hg).ne
      rw [enter]
      simp only [h.bySize, hget, Option.getD_none, nil_append, set_of_forall_lt hlt]
    exact enterAll_bySize hlt henter
  · rw [h.mem_iff]
    simp only [gapsOf, Set.mem_ofPred_eq, mem_append, mem_singleton, Prod.mk.injEq]
    constructor
    · rintro (⟨hs, hk⟩ | ⟨⟨l, hl, hs⟩, -⟩)
      · exact ⟨starts, .inr ⟨hk, rfl⟩, hs⟩
      · exact ⟨l, .inl hl, hs⟩
    · rintro ⟨l, hl | ⟨hk, rfl⟩, hs⟩
      · exact .inr ⟨⟨l, hl, hs⟩, (horder _ hl).2 _ hs⟩
      · exact .inl ⟨hs, hk⟩

/-- A group that can be read. -/
def Readable (g : ℤ × List ℤ) : Prop := g.1 ≠ 0 ∧ g.2.length < 2 ^ 31

instance : DecidablePred Readable := fun _ => inferInstanceAs (Decidable (_ ∧ _))

theorem saveGroups_of_far (hgroups : ∀ g ∈ groups, IsGroup g)
    (hfar : ∃ g ∈ groups, ¬ g.2.IsChain Near) : saveGroups groups = .error .assertion := by
  induction groups with
  | nil => simp at hfar
  | cons g groups ih =>
    obtain ⟨hg, hrest⟩ := forall_mem_cons.mp hgroups
    rw [saveGroups]
    rcases putPositions_spec hg.ne_nil hg.isPosition hg.length_le with
      ⟨-, herr⟩ | ⟨hnear, bytes, hok, -⟩
    · rw [herr]
      rfl
    obtain ⟨g', hg', hfar'⟩ := hfar
    rcases mem_cons.mp hg' with rfl | hg'
    · exact absurd hnear hfar'
    · rw [hok, ok_bind, ih hrest ⟨g', hg', hfar'⟩]
      rfl

theorem saveGroups_spec (hgroups : ∀ g ∈ groups, IsGroup g)
    (hnear : ∀ g ∈ groups, g.2.IsChain Near) : ∃ bytes, saveGroups groups = .ok bytes ∧
      ((∀ g ∈ groups, Readable g) → ∀ t before rest, t.Loaded before →
        (before ++ groups).Pairwise InOrder → ∃ t',
          loadGroups groups.length t (bytes ++ rest) = .ok (t', rest) ∧
          t'.Loaded (before ++ groups)) ∧
      ((∃ g ∈ groups, ¬ Readable g) → ∀ t rest, ∃ f,
        loadGroups groups.length t (bytes ++ rest) = .error f) := by
  induction groups with
  | nil =>
    refine ⟨[], rfl, fun _ t before rest ht _ => ⟨t, rfl, ?_⟩, fun hex => by simp at hex⟩
    rwa [append_nil]
  | cons g groups ih =>
    obtain ⟨hg, hgroups⟩ := forall_mem_cons.mp hgroups
    obtain ⟨hgnear, hnear⟩ := forall_mem_cons.mp hnear
    obtain ⟨bytes, hsave, hload, hfail⟩ := ih hgroups hnear
    rcases putPositions_spec hg.ne_nil hg.isPosition hg.length_le with
      ⟨hfar, -⟩ | ⟨-, positions, hput, hget, hover⟩
    · exact absurd hgnear hfar
    have hsize :
        ∀ rest, getPackedNum (putPackedNum (toUInt64 g.1) ++ rest) = (toUInt64 g.1, rest) :=
      getPackedNum_putPackedNum (toUInt64_lt g.1)
    have hwrap : wrapInt (toUInt64 g.1) = g.1 := by
      rw [wrapInt_toUInt64, wrapInt_of_bounds hg.size_bounds.1 hg.size_bounds.2]
    refine ⟨putPackedNum (toUInt64 g.1) ++ positions ++ bytes,
      by rw [saveGroups, hput, ok_bind, hsave]; rfl, ?_, ?_⟩
    · intro hread t before rest ht horder
      obtain ⟨hgread, hread⟩ := forall_mem_cons.mp hread
      have hbefore : ∀ g' ∈ before, InOrder g' (g.1, g.2) := fun g' hg' =>
        (pairwise_append.mp horder).2.2 g' hg' g mem_cons_self
      obtain ⟨t', hload', hloaded⟩ := hload hread _ _ rest (ht.enterAll hg.ne_nil hbefore)
        (by rwa [append_assoc])
      refine ⟨t', ?_, by rwa [append_assoc] at hloaded⟩
      simp only [length_cons, loadGroups, append_assoc, hsize, hwrap]
      rw [check_of hgread.1, ok_bind, hget hgread.2, ok_bind, hload']
    · intro hex t rest
      simp only [length_cons, loadGroups, append_assoc, hsize, hwrap]
      by_cases hzero : g.1 = 0
      · exact ⟨_, by rw [check_of_not (not_not_intro hzero)]; rfl⟩
      rw [check_of hzero]
      by_cases hlen : g.2.length < 2 ^ 31
      · rw [hget hlen, ok_bind]
        obtain ⟨g', hg', hunread⟩ := hex
        rcases mem_cons.mp hg' with rfl | hg'
        · exact absurd ⟨hzero, hlen⟩ hunread
        · exact hfail ⟨g', hg', hunread⟩ _ rest
      · obtain ⟨f, hf⟩ := hover (not_lt.mp hlen) (bytes ++ rest)
        exact ⟨f, by rw [hf]; rfl⟩

theorem loaded_init : ({} : GenericGapTracker).Loaded [] :=
  ⟨rfl, .nil, by simp [gapsOf]⟩

theorem Valid.load_save (h : t.Valid) (hstore : t.Storable) :
    ∃ bytes, t.save = .ok bytes ∧ ∀ rest, load (bytes ++ rest) = .ok (t, rest) := by
  obtain ⟨hgroups, hlen⟩ := hstore
  obtain ⟨bytes, hsave, hload, -⟩ := saveGroups_spec h.isGroup fun g hg => (hgroups g hg).2.1
  refine ⟨putBe 4 (wrapNat 32 t.bySize.length) ++ bytes, by rw [save, hsave]; rfl, fun rest => ?_⟩
  obtain ⟨t', hload', hloaded⟩ := hload (fun g hg => ⟨(hgroups g hg).1, (hgroups g hg).2.2⟩)
    {} [] rest loaded_init h.pairwise_inOrder
  have hstart : t'.byStart = t.byStart := by
    refine hloaded.sorted.ext h.sorted fun p => (hloaded.mem_iff p).trans ?_
    exact (h.indexed.mem_iff p.1 p.2).symm
  have hcount : wrapNat 32 t.bySize.length = t.bySize.length := wrapNat_of_lt (by omega)
  rw [load]
  simp only [append_assoc, hcount, getBe_putBe 4 (show t.bySize.length < 256 ^ 4 by omega),
    min_eq_left hlen.le, hload', ok_bind, if_pos hlen, pure_eq_ok]
  refine congrArg (fun t => ok (t, rest)) ?_
  obtain ⟨byStart, bySize, empty⟩ := t
  obtain ⟨byStart', bySize', empty'⟩ := t'
  obtain rfl : byStart' = byStart := hstart
  obtain rfl : bySize' = bySize := hloaded.bySize
  rw [GenericGapTracker.mk.injEq]
  exact ⟨rfl, rfl, h.empty_eq.symm⟩

theorem Valid.reload (h : t.Valid) (hstore : t.Storable) : t.reload = .ok t := by
  obtain ⟨bytes, hsave, hload⟩ := h.load_save hstore
  have hload := hload []
  rw [append_nil] at hload
  rw [GenericGapTracker.reload, hsave, ok_bind, hload]
  rfl

theorem Valid.sizes_bounds (h : t.Valid) :
    ∀ k ∈ t.bySize.map Prod.fst, -2 ^ 31 ≤ k ∧ k < 2 ^ 31 := by
  intro k hk
  obtain ⟨g, hg, rfl⟩ := List.mem_map.mp hk
  exact (h.isGroup g hg).size_bounds

theorem Valid.reload_of_not_storable (h : t.Valid) (hstore : ¬ t.Storable)
    (hreload : t.reload = .ok t') : t' = {} ∧ t.bySize.length = 2 ^ 32 := by
  obtain ⟨bytes, hsave, hreturn⟩ := bind_eq_ok.mp hreload
  obtain ⟨⟨t1, rest⟩, hload, hret⟩ := bind_eq_ok.mp hreturn
  obtain rfl : t1 = t' := ok.inj hret
  have hnear : ∀ g ∈ t.bySize, g.2.IsChain Near := by
    by_contra hfar
    rw [save, saveGroups_of_far h.isGroup (by simpa using hfar)] at hsave
    exact absurd hsave (by simp)
  obtain ⟨groups, hgroups, -, hfail⟩ := saveGroups_spec h.isGroup hnear
  rw [save, hgroups] at hsave
  obtain rfl := ok.inj hsave
  have hcount : ∀ rest, getBe 4 (putBe 4 (wrapNat 32 t.bySize.length) ++ rest) =
      (wrapNat 32 t.bySize.length, rest) :=
    getBe_putBe 4 (lt_pow_bytes (wrapNat_lt 32 _))
  simp only [load, hcount] at hload
  obtain ⟨⟨t2, rest2⟩, hgroups', hrest⟩ := bind_eq_ok.mp hload
  split_ifs at hrest with hlt
  -- a count that an `int` holds is that of groups one of which cannot be read, or has wrapped
  by_cases hlen : t.bySize.length < 2 ^ 31
  · have hex : ∃ g ∈ t.bySize, ¬ Readable g := by
      by_contra hread
      refine hstore ⟨fun g hg => ?_, hlen⟩
      by_contra hg'
      exact hread ⟨g, hg, fun hr => hg' ⟨hr.1, hnear g hg, hr.2⟩⟩
    obtain ⟨f, hf⟩ := hfail hex {} []
    rw [wrapNat_of_lt (by omega), min_eq_left hlen.le, ← append_nil groups, hf] at hgroups'
    exact absurd hgroups' (by simp)
  · have hle := length_le_of_nodup h.sizes_nodup h.sizes_bounds
    rw [length_map] at hle
    have hmax : t.bySize.length = 2 ^ 32 := by
      unfold wrapNat at hlt
      omega
    rw [hmax] at hgroups'
    obtain ⟨rfl, -⟩ := pair_inj hgroups'
    exact ⟨(pair_inj hrest).1.symm, hmax⟩

theorem Valid.exists_size (h : t.Valid) (hmax : t.bySize.length = 2 ^ 32)
    (hc : -2 ^ 31 < c ∧ c < 2 ^ 31) : (∃ g ∈ t.bySize, c ≤ g.1) ∧ ∃ g ∈ t.bySize, g.1 < c := by
  constructor
  · by_contra hsmall
    push Not at hsmall
    have hle := length_le_of_nodup h.sizes_nodup (a := -2 ^ 31) (b := c) fun k hk => by
      obtain ⟨g, hg, rfl⟩ := List.mem_map.mp hk
      exact ⟨(h.isGroup g hg).size_bounds.1, hsmall g hg⟩
    rw [length_map] at hle
    omega
  · by_contra hlarge
    push Not at hlarge
    have hle := length_le_of_nodup h.sizes_nodup (a := c) (b := 2 ^ 31) fun k hk => by
      obtain ⟨g, hg, rfl⟩ := List.mem_map.mp hk
      exact ⟨hlarge g hg, (h.isGroup g hg).size_bounds.2⟩
    rw [length_map] at hle
    omega

theorem allocate_ne_none (hempty : t.empty = false) (hex : ∃ g ∈ t.bySize, n ≤ g.1) :
    t.allocate n ≠ .ok (t', none) := by
  intro hnone
  rw [GenericGapTracker.allocate, hempty, if_neg (by simp)] at hnone
  cases hbound : lowerBound t.bySize n with
  | none =>
    obtain ⟨g, hg, hle⟩ := hex
    exact absurd hle (lowerBound_eq_none.mp hbound g hg).not_ge
  | some g =>
    rw [hbound] at hnone
    obtain ⟨k, _ | ⟨pos, starts⟩⟩ := g
    · simp at hnone
    · simp only at hnone
      split at hnone
      · simp at hnone
      · obtain ⟨t1, -, hret⟩ := bind_eq_ok.mp hnone
        split_ifs at hret <;> simp at hret

theorem Valid.init : ({} : GenericGapTracker).Valid where
  sorted := .nil
  indexed := ⟨.nil, by simp, by simp, by simp⟩
  size_bounds := by simp
  empty_eq := rfl
  isPosition := by simp

theorem Reachable.valid (h : t.Reachable) : t.Valid := by
  induction h with
  | init => exact .init
  | add _ hs hn hfresh hadd ih => exact ih.add hs hn hfresh hadd
  | allocate _ hn hgaps halloc ih => exact ih.allocate hn hgaps halloc
  | @reload t t' _ hload ih =>
    by_cases hstore : t.Storable
    · rw [ih.reload hstore] at hload
      obtain rfl := ok.inj hload
      exact ih
    · obtain ⟨rfl, -⟩ := ih.reload_of_not_storable hstore hload
      exact .init

/-- A tracker behaves the same after it was saved and loaded. -/
def ReloadsSame (t : GenericGapTracker) : Prop :=
  ∃ t', t.reload = .ok t' ∧
    ∀ ops, trace GenericGapTracker.step t' ops = trace GenericGapTracker.step t ops

theorem Valid.reloadsSame_iff (h : t.Valid) : t.ReloadsSame ↔ t.Storable := by
  constructor
  · rintro ⟨t', hreload, hsame⟩
    by_contra hstore
    obtain ⟨rfl, hmax⟩ := h.reload_of_not_storable hstore hreload
    have hex := (h.exists_size hmax (c := 1) (by norm_num)).1
    have hempty : t.empty = false := by
      obtain ⟨g, hg, -⟩ := hex
      obtain ⟨s, hs⟩ := exists_mem_of_ne_nil _ (h.isGroup g hg).ne_nil
      have hmem : (s, g.1) ∈ t.byStart := (h.indexed.mem_iff s g.1).mpr ⟨g.2, hg, hs⟩
      rw [h.empty_eq]
      exact isEmpty_eq_false_iff.mpr (ne_nil_of_mem hmem)
    -- the new tracker has nothing to allocate
    have houtputs := congrArg Prod.fst (hsame [.allocate 1])
    simp only [trace, run, GenericGapTracker.step] at houtputs
    cases halloc : t.allocate 1 with
    | error f =>
      rw [halloc] at houtputs
      simp [GenericGapTracker.allocate] at houtputs
    | ok r =>
      obtain ⟨t1, pos⟩ := r
      rw [halloc] at houtputs
      obtain rfl : none = pos := by simpa [GenericGapTracker.allocate] using houtputs
      exact allocate_ne_none hempty hex halloc
  · exact fun hstore => ⟨t, h.reload hstore, fun _ => rfl⟩

end GenericGapTracker

/-! ### Gaps of one size -/

namespace OneSizeGapTracker

variable {t t' : OneSizeGapTracker} {s n : ℤ}

/-- The position behind the first one that is saved is an `int32_t`, too. -/
def save (t : OneSizeGapTracker) : Checked Bytes :=
  if t.empty then .ok (putBe 4 0)
  else if 2 ^ 31 ≤ t.currentPos + 1 then .error .overflow
  else do
    let positions ← putPositions (t.gapStarts.drop t.currentPos)
    return putBe 4 1 ++ putPackedNum (toUInt64 t.size) ++ positions

/-- `load` into a new tracker. -/
def load (bs : Bytes) : Checked (OneSizeGapTracker × Bytes) := do
  let gapsCount := getBe 4 bs
  check (gapsCount.1 = 0 ∨ gapsCount.1 = 1)
  if 0 < gapsCount.1 then
    let size := getPackedNum gapsCount.2
    let starts ← getPositions size.2
    return ({ gapStarts := starts.1, size := wrapInt size.1, empty := starts.1.isEmpty }, starts.2)
  else return ({}, gapsCount.2)

def reload (t : OneSizeGapTracker) : Checked OneSizeGapTracker := do
  let bytes ← t.save
  let (t, _) ← load bytes
  return t

/-- The trackers that are reached. A vector has fewer than `2 ^ 64` elements. -/
inductive Reachable : OneSizeGapTracker → Prop
  | init : Reachable {}
  | add {t : OneSizeGapTracker} {s n : ℤ} (h : Reachable t) (hs : IsPosition s)
      (hn : -2 ^ 31 ≤ n ∧ n < 2 ^ 31) (hlen : t.gapStarts.length + 1 < 2 ^ 64) :
      Reachable (t.add s n)
  | allocate {t t' : OneSizeGapTracker} {n : ℤ} {pos : Option ℤ} (h : Reachable t)
      (hn : -2 ^ 31 ≤ n ∧ n < 2 ^ 31) (halloc : t.allocate n = .ok (t', pos)) : Reachable t'
  | reload {t t' : OneSizeGapTracker} (h : Reachable t) (hload : t.reload = .ok t') : Reachable t'

/-- The gaps that are still to be allocated. -/
def pending (t : OneSizeGapTracker) : List ℤ := t.gapStarts.drop t.currentPos

/-- What is loaded as it was: there are gaps or no size is known, consecutive positions are not
`2 ^ 63` apart, and an `int` counts them and the gaps that were allocated before. -/
def Storable (t : OneSizeGapTracker) : Prop :=
  (t.pending = [] → t.size = 0) ∧ t.currentPos + 1 < 2 ^ 31 ∧ t.pending.IsChain Near ∧
    t.pending.length < 2 ^ 31

instance (t : OneSizeGapTracker) : Decidable t.Storable := inferInstanceAs (Decidable (_ ∧ _))

/-- The position stays an `int32_t`. -/
def Counts (t : OneSizeGapTracker) : GapOp → Prop
  | .allocate _ => t.currentPos + 1 < 2 ^ 31
  | _ => True

/-- A tracker behaves the same after it was saved and loaded, as long as it counts the gaps it
hands out. -/
def ReloadsSame (t : OneSizeGapTracker) : Prop :=
  ∃ t', t.reload = .ok t' ∧ ∀ ops, Meets OneSizeGapTracker.step Counts t ops →
    trace OneSizeGapTracker.step t' ops = trace OneSizeGapTracker.step t ops

/-- The flag is right, and the vector is cleared when its last gap was allocated. -/
structure Valid (t : OneSizeGapTracker) : Prop where
  empty_eq : t.empty = t.pending.isEmpty
  cleared : t.pending = [] → t.gapStarts = [] ∧ t.currentPos = 0

theorem Valid.currentPos_le (h : t.Valid) : t.currentPos ≤ t.gapStarts.length := by
  by_cases hnil : t.pending = []
  · rw [(h.cleared hnil).2]
    exact Nat.zero_le _
  · by_contra hlt
    exact hnil (drop_eq_nil_of_le (by omega))

theorem Valid.add (h : t.Valid) (s n : ℤ) :
    (t.add s n).Valid ∧ (t.add s n).pending = t.pending ++ [s] := by
  have hpending : (t.add s n).pending = t.pending ++ [s] :=
    drop_append_of_le_length h.currentPos_le
  refine ⟨⟨?_, by simp [hpending]⟩, hpending⟩
  rw [hpending]
  by_cases hall : t.currentPos = t.gapStarts.length
  · simp [OneSizeGapTracker.add, hall]
  have hne : t.pending ≠ [] := by
    have := h.currentPos_le
    simp only [pending, ne_eq, drop_eq_nil_iff]
    omega
  have hold := isEmpty_eq_false_iff.mpr hne
  have hnew : (t.pending ++ [s]).isEmpty = false := by simp
  simp only [OneSizeGapTracker.add, if_neg hall, h.empty_eq, hold, hnew]

open OneSizeGapTracker

theorem Valid.allocate_nil (h : t.Valid) (hnil : t.pending = []) (n : ℤ) :
    t.allocate n = .ok (t, none) := by
  rw [allocate, h.empty_eq, hnil]
  rfl

theorem Valid.allocate_cons (h : t.Valid) {pos : ℤ} {rest : List ℤ}
    (hcons : t.pending = pos :: rest) (n : ℤ) : ∃ t', t.allocate n =
        (if 2 ^ 31 ≤ t.currentPos + 1 then .error .overflow else .ok (t', some pos)) ∧
      t'.Valid ∧ t'.pending = rest ∧ t'.size = (if t.size = 0 then n else t.size) ∧
      (t'.gapStarts = t.gapStarts ∨ t'.gapStarts = []) := by
  have hlt : t.currentPos < t.gapStarts.length := by
    by_contra hge
    rw [pending, drop_eq_nil_of_le (by omega)] at hcons
    exact cons_ne_nil _ _ hcons.symm
  rw [pending, drop_eq_getElem_cons hlt, cons.injEq] at hcons
  obtain ⟨hpos, hrest⟩ := hcons
  have hempty : t.empty = false := by
    rw [h.empty_eq, pending, drop_eq_getElem_cons hlt]
    rfl
  have hread : readAt t.gapStarts t.currentPos = .ok pos := by
    rw [readAt, getElem?_eq_getElem hlt, hpos]
  have halloc : t.allocate n = if 2 ^ 31 ≤ t.currentPos + 1 then .error .overflow
      else if t.currentPos + 1 = t.gapStarts.length then
        .ok (⟨[], 0, if t.size = 0 then n else t.size, true⟩, some pos)
      else .ok (⟨t.gapStarts, t.currentPos + 1, if t.size = 0 then n else t.size, false⟩,
        some pos) := by
    rw [allocate, hempty, if_neg Bool.false_ne_true, if_neg hlt.ne]
    simp only [hread, ok_bind, pure_eq_ok]
  by_cases hlast : t.currentPos + 1 = t.gapStarts.length
  · have hnil : rest = [] := by
      rw [← hrest]
      exact drop_eq_nil_of_le hlast.ge
    rw [if_pos hlast] at halloc
    exact ⟨_, halloc, ⟨rfl, fun _ => ⟨rfl, rfl⟩⟩, hnil.symm, rfl, .inr rfl⟩
  have hne : rest ≠ [] := by
    rw [← hrest, ne_eq, drop_eq_nil_iff]
    omega
  rw [if_neg hlast] at halloc
  refine ⟨_, halloc, ⟨?_, fun hnil => absurd (hrest.symm.trans hnil) hne⟩, hrest, rfl, .inl rfl⟩
  simp only [pending, hrest]
  exact (isEmpty_eq_false_iff.mpr hne).symm

/-- The second tracker lacks some of the gaps that the first one has handed out. -/
structure Trims (t t' : OneSizeGapTracker) : Prop where
  exists_starts : ∃ handedOut : List ℤ, t.gapStarts = handedOut ++ t'.gapStarts ∧
    t.currentPos = handedOut.length + t'.currentPos
  size_eq : t.size = t'.size
  empty_eq : t.empty = t'.empty

theorem Trims.allocate (h : Trims t t') (n : ℤ) (hcount : t.currentPos + 1 < 2 ^ 31) :
    Checked.Rel (fun p p' => Trims p.1 p'.1 ∧ p.2 = p'.2) (t.allocate n) (t'.allocate n) := by
  have hsame := h
  obtain ⟨starts, pos, size, empty⟩ := t
  obtain ⟨starts', pos', size', empty'⟩ := t'
  obtain ⟨⟨handedOut, hstarts, hpos⟩, hsize, hempty⟩ := h
  dsimp only at hstarts hpos hsize hempty hcount
  subst hstarts hpos hsize hempty
  have hover : ¬ 2 ^ 31 ≤ pos' + 1 := by omega
  have hread : readAt (handedOut ++ starts') (handedOut.length + pos') = readAt starts' pos' := by
    rw [readAt, getElem?_append_right (by omega), Nat.add_sub_cancel_left]
    rfl
  simp only [OneSizeGapTracker.allocate, length_append, Nat.add_left_cancel_iff, Nat.add_assoc,
    hread, if_neg hover, if_neg (not_le.mpr (Nat.add_assoc .. ▸ hcount))]
  by_cases hnone : empty = true
  · rw [if_pos hnone, if_pos hnone]
    exact .ok ⟨hsame, rfl⟩
  rw [if_neg hnone, if_neg hnone]
  by_cases hall : pos' = starts'.length
  · rw [if_pos hall, if_pos hall]
    exact .ok ⟨hsame, rfl⟩
  rw [if_neg hall, if_neg hall]
  cases readAt starts' pos' with
  | error f => exact .error f
  | ok res =>
    by_cases hlast : pos' + 1 = starts'.length
    · simp only [if_pos hlast, ok_bind]
      exact .ok ⟨⟨⟨[], rfl, rfl⟩, rfl, rfl⟩, rfl⟩
    · simp only [if_neg hlast, ok_bind]
      exact .ok ⟨⟨⟨handedOut, rfl, rfl⟩, rfl, rfl⟩, rfl⟩

/-- A tracker does not miss what it has handed out. -/
theorem Trims.step (t t' : OneSizeGapTracker) (op : GapOp) (h : Trims t t') (hop : t.Counts op) :
    Checked.Rel (fun p p' => Trims p.1 p'.1 ∧ p.2 = p'.2) (t.step op) (t'.step op) := by
  obtain ⟨handedOut, hstarts, hpos⟩ := h.exists_starts
  cases op with
  | allocate n =>
    have hrel := h.allocate n hop
    rw [OneSizeGapTracker.step, OneSizeGapTracker.step]
    generalize t.allocate n = x at hrel ⊢
    generalize t'.allocate n = y at hrel ⊢
    cases hrel with
    | error f => exact .error f
    | ok hrel => exact .ok ⟨hrel.1, congrArg GapOutput.position hrel.2⟩
  | add s n =>
    refine .ok ⟨⟨⟨handedOut, ?_, hpos⟩, ?_, ?_⟩, rfl⟩
    · simp [OneSizeGapTracker.add, hstarts]
    · simp [OneSizeGapTracker.add, h.size_eq]
    · simp [OneSizeGapTracker.add, hstarts, hpos, h.empty_eq]
  | wastedSpace =>
    refine .ok ⟨h, congrArg GapOutput.space ?_⟩
    simp [wastedSpace, h.empty_eq, h.size_eq, hstarts, hpos]

/-- What is stored are an `int` and positions. -/
structure InRange (t : OneSizeGapTracker) : Prop where
  size_bounds : -2 ^ 31 ≤ t.size ∧ t.size < 2 ^ 31
  isPosition : ∀ s ∈ t.gapStarts, IsPosition s
  length_lt : t.gapStarts.length < 2 ^ 64

theorem InRange.pending (h : t.InRange) :
    (∀ s ∈ t.pending, IsPosition s) ∧ t.pending.length < 2 ^ 64 := by
  refine ⟨fun s hs => h.isPosition s (mem_of_mem_drop hs), ?_⟩
  rw [OneSizeGapTracker.pending, length_drop]
  have := h.length_lt
  omega

theorem Valid.reload_nil (h : t.Valid) (hnil : t.pending = []) : t.reload = .ok {} := by
  rw [reload, save, h.empty_eq, hnil]
  rfl

theorem Valid.reload_ne_nil (h : t.Valid) (hrange : t.InRange) (hne : t.pending ≠ []) :
    (t.Storable → t.reload = .ok { gapStarts := t.pending, size := t.size, empty := false }) ∧
      (¬ t.Storable → ∃ f, t.reload = .error f) := by
  obtain ⟨hpos, hlen⟩ := hrange.pending
  have hempty : ¬ t.empty = true := by
    rw [h.empty_eq]
    simpa using hne
  have hsize : ∀ rest, getPackedNum (putPackedNum (toUInt64 t.size) ++ rest) =
      (toUInt64 t.size, rest) :=
    getPackedNum_putPackedNum (toUInt64_lt t.size)
  have hone : ∀ rest, getBe 4 (putBe 4 1 ++ rest) = (1, rest) := getBe_putBe 4 (by norm_num)
  rw [reload, save, if_neg hempty]
  by_cases hcount : 2 ^ 31 ≤ t.currentPos + 1
  · rw [if_pos hcount]
    exact ⟨fun hstore => absurd hstore.2.1 (not_lt.mpr hcount), fun _ => ⟨_, rfl⟩⟩
  rw [if_neg hcount]
  change (_ → (putPositions t.pending >>= _) >>= _ = _) ∧
    (_ → ∃ f, (putPositions t.pending >>= _) >>= _ = .error f)
  rcases putPositions_spec hne hpos hlen.le with
    ⟨hfar, herr⟩ | ⟨hnear, bytes, hput, hget, hover⟩
  · rw [herr]
    exact ⟨fun hstore => absurd hstore.2.2.1 hfar, fun _ => ⟨_, rfl⟩⟩
  simp only [hput, ok_bind, pure_eq_ok, load, append_assoc, hone, hsize]
  rw [← append_nil bytes]
  rw [check_of (by simp)]
  refine ⟨fun hstore => ?_, fun hmany => ?_⟩
  · simp only [hget hstore.2.2.2, ok_bind, if_pos one_pos, wrapInt_toUInt64,
      wrapInt_of_bounds hrange.size_bounds.1 hrange.size_bounds.2, isEmpty_eq_false_iff.mpr hne]
  · obtain ⟨f, hf⟩ := hover (by
      by_contra hlt
      exact hmany ⟨fun hnil => absurd hnil hne, not_le.mp hcount, hnear, not_le.mp hlt⟩) []
    exact ⟨f, by simp only [hf, ok_bind, if_pos one_pos, error_bind]⟩

theorem Reachable.valid (h : t.Reachable) : t.Valid ∧ t.InRange := by
  have hinit : ({} : OneSizeGapTracker).Valid ∧ ({} : OneSizeGapTracker).InRange :=
    ⟨⟨rfl, fun _ => ⟨rfl, rfl⟩⟩, by norm_num, by simp, by norm_num⟩
  induction h with
  | init => exact hinit
  | @add t s n _ hs hn hlen ih =>
    obtain ⟨hvalid, hrange⟩ := ih
    refine ⟨(hvalid.add s n).1, ?_, fun p hp => ?_, ?_⟩
    · simp only [OneSizeGapTracker.add]
      split_ifs
      · exact hn
      · exact hrange.size_bounds
    · rcases mem_append.mp hp with hp | hp
      · exact hrange.isPosition p hp
      · rwa [mem_singleton.mp hp]
    · simpa [OneSizeGapTracker.add] using hlen
  | @allocate t t' n pos _ hn halloc ih =>
    obtain ⟨hvalid, hrange⟩ := ih
    cases hpending : t.pending with
    | nil =>
      rw [hvalid.allocate_nil hpending] at halloc
      obtain ⟨rfl, -⟩ := pair_inj halloc
      exact ⟨hvalid, hrange⟩
    | cons p rest =>
      obtain ⟨t1, heq, hvalid', -, hsize, hstarts⟩ := hvalid.allocate_cons hpending n
      rw [heq] at halloc
      split_ifs at halloc
      obtain ⟨rfl, -⟩ := pair_inj halloc
      refine ⟨hvalid', ?_, ?_, ?_⟩
      · rw [hsize]
        split_ifs
        · exact hn
        · exact hrange.size_bounds
      · rcases hstarts with hstarts | hstarts
        · rw [hstarts]
          exact hrange.isPosition
        · simp [hstarts]
      · rcases hstarts with hstarts | hstarts
        · rw [hstarts]
          exact hrange.length_lt
        · simp [hstarts]
  | @reload t t' _ hload ih =>
    obtain ⟨hvalid, hrange⟩ := ih
    by_cases hnil : t.pending = []
    · rw [hvalid.reload_nil hnil] at hload
      obtain rfl := ok.inj hload
      exact hinit
    obtain ⟨hok, herr⟩ := hvalid.reload_ne_nil hrange hnil
    by_cases hstore : t.Storable
    · rw [hok hstore] at hload
      obtain rfl := ok.inj hload
      refine ⟨⟨?_, fun h => absurd h hnil⟩, hrange.size_bounds, hrange.pending.1, hrange.pending.2⟩
      exact (isEmpty_eq_false_iff.mpr hnil).symm
    · obtain ⟨f, hf⟩ := herr hstore
      rw [hf] at hload
      exact absurd hload (by simp)

theorem Reachable.reloadsSame_iff (h : t.Reachable) : t.ReloadsSame ↔ t.Storable := by
  obtain ⟨hvalid, hrange⟩ := h.valid
  by_cases hnil : t.pending = []
  · obtain ⟨hstarts, hpos⟩ := hvalid.cleared hnil
    have hempty : t.empty = true := by rw [hvalid.empty_eq, hnil]; rfl
    have hreload := hvalid.reload_nil hnil
    obtain ⟨starts, pos, size, empty⟩ := t
    dsimp only at hstarts hpos hempty
    subst hstarts hpos hempty
    constructor
    · rintro ⟨t', hreload', hsame⟩
      obtain rfl : {} = t' := ok.inj (hreload.symm.trans hreload')
      refine ⟨fun _ => ?_, by norm_num, by rw [hnil]; exact isChain_nil, by rw [hnil]; norm_num⟩
      by_contra hsize
      obtain ⟨hlo, hhi⟩ : -2 ^ 31 ≤ size ∧ size < 2 ^ 31 := hrange.size_bounds
      obtain ⟨c, hc, hclo, hchi⟩ : ∃ c : ℤ, c ≠ size ∧ 0 < c ∧ c < 2 ^ 31 := by
        by_cases hone : size = 1
        · exact ⟨2, by omega, by norm_num, by norm_num⟩
        · exact ⟨1, by omega, by norm_num, by norm_num⟩
      -- a gap of another size is counted with the size that was known before
      have htrace := hsame [.add 0 c, .wastedSpace] (by simp [Meets, Counts])
      have hspace : wrapInt64 c = wrapInt64 size := by
        simpa [trace, run, OneSizeGapTracker.step, OneSizeGapTracker.add, wastedSpace, hsize]
          using congrArg Prod.fst htrace
      rw [wrapInt64_of_bounds (by omega) (by omega), wrapInt64_of_bounds (by omega) (by omega)]
        at hspace
      exact hc hspace
    · rintro ⟨hsize, -⟩
      obtain rfl := hsize hnil
      exact ⟨{}, hreload, fun _ _ => rfl⟩
  · obtain ⟨hok, herr⟩ := hvalid.reload_ne_nil hrange hnil
    constructor
    · rintro ⟨t', hreload, -⟩
      by_contra hstore
      obtain ⟨f, hf⟩ := herr hstore
      rw [hf] at hreload
      exact absurd hreload (by simp)
    · intro hstore
      refine ⟨_, hok hstore, fun ops hmeets => (trace_eq_of_meets Trims.step ?_ hmeets).symm⟩
      refine ⟨⟨t.gapStarts.take t.currentPos, (take_append_drop ..).symm, ?_⟩, rfl, ?_⟩
      · simp [hvalid.currentPos_le]
      · rw [hvalid.empty_eq, isEmpty_eq_false_iff.mpr hnil]

def added? : GapOp → Option ℤ
  | .add start _ => some start
  | _ => none

def handedOut? : GapOutput → Option ℤ
  | .position pos => pos
  | _ => none

/-- An addition goes to the end of what is pending, an allocation takes from its front. -/
theorem Valid.step (h : t.Valid) (op : GapOp) (hop : t.Counts op) :
    ∃ t' o, t.step op = .ok (t', o) ∧ t'.Valid ∧
      t.pending ++ [op].filterMap added? = [o].filterMap handedOut? ++ t'.pending := by
  cases op with
  | allocate n =>
    cases hpending : t.pending with
    | nil =>
      exact ⟨t, .position none, by rw [OneSizeGapTracker.step, h.allocate_nil hpending]; rfl, h,
        by simp [filterMap_cons, added?, handedOut?, hpending]⟩
    | cons pos rest =>
      obtain ⟨t', halloc, h', hrest, -⟩ := h.allocate_cons hpending n
      rw [if_neg (not_le.mpr hop)] at halloc
      exact ⟨t', .position (some pos), by rw [OneSizeGapTracker.step, halloc]; rfl, h',
        by simp [filterMap_cons, added?, handedOut?, hrest]⟩
  | add s n =>
    obtain ⟨h', hpending⟩ := h.add s n
    exact ⟨_, _, rfl, h', by simp [filterMap_cons, added?, handedOut?, hpending]⟩
  | wastedSpace => exact ⟨_, _, rfl, h, by simp [filterMap_cons, added?, handedOut?]⟩

/-- Gaps of one size are handed out once each, in the order in which they were added. -/
theorem handed_out_in_order (ops : List GapOp)
    (hmeets : Meets OneSizeGapTracker.step Counts {} ops) :
    ∃ t, (run OneSizeGapTracker.step {} ops).2 = .ok t ∧ ops.filterMap added? =
      (run OneSizeGapTracker.step {} ops).1.filterMap handedOut? ++ t.pending := by
  have hstep (is : List GapOp) (os : List GapOutput) (t : OneSizeGapTracker) (op : GapOp)
      (h : t.Valid ∧ is.filterMap added? = os.filterMap handedOut? ++ t.pending)
      (hop : t.Counts op) : ∃ t' o, t.step op = .ok (t', o) ∧ t'.Valid ∧
        (is ++ [op]).filterMap added? = (os ++ [o]).filterMap handedOut? ++ t'.pending := by
    obtain ⟨hvalid, hbooks⟩ := h
    obtain ⟨t', o, ht, hvalid', hnext⟩ := hvalid.step op hop
    refine ⟨t', o, ht, hvalid', ?_⟩
    rw [filterMap_append, filterMap_append, hbooks, append_assoc, append_assoc, hnext]
  have hinit : ({} : OneSizeGapTracker).Valid := ⟨rfl, fun _ => ⟨rfl, rfl⟩⟩
  obtain ⟨t, hrun, -, hbooks⟩ := run_history hstep ops [] [] ⟨hinit, rfl⟩ hmeets
  exact ⟨t, hrun, hbooks⟩

/-- A third gap is added while the second is pending. -/
theorem handed_out_in_order_three : ∃ t, (run OneSizeGapTracker.step {} [.add 100 4096, .add 0 4096,
    .allocate 4096, .add 50 4096, .allocate 4096]).2 = .ok t ∧ [100, 0, 50] =
      (run OneSizeGapTracker.step {} [.add 100 4096, .add 0 4096, .allocate 4096, .add 50 4096,
        .allocate 4096]).1.filterMap handedOut? ++ t.pending :=
  handed_out_in_order _ (by simp [Meets, Counts, OneSizeGapTracker.step, OneSizeGapTracker.add,
    OneSizeGapTracker.allocate, readAt])

end OneSizeGapTracker

/-! ### Both trackers -/

/-- A tracker behaves the same after it was saved and loaded if and only if it can be stored. -/
theorem reload_same_iff (t : GenericGapTracker) (t' : OneSizeGapTracker) :
    (t.Reachable → (t.ReloadsSame ↔ t.Storable)) ∧
      (t'.Reachable → (t'.ReloadsSame ↔ t'.Storable)) :=
  ⟨fun h => h.valid.reloadsSame_iff, fun h => h.reloadsSame_iff⟩

/-- Two gaps of one size, the second before the first, and one of another size. -/
theorem reload_same_iff_two_sizes :
    GenericGapTracker.ReloadsSame
      ⟨[(0, 10), (20, 5), (100, 10)], [(5, [20]), (10, [100, 0])], false⟩ ∧
      OneSizeGapTracker.ReloadsSame ⟨[100, 0], 1, 4096, false⟩ := by
  have hgeneric : GenericGapTracker.Reachable
      ⟨[(0, 10), (20, 5), (100, 10)], [(5, [20]), (10, [100, 0])], false⟩ :=
    (((GenericGapTracker.Reachable.init.add (s := 100) (n := 10) (by decide) (by decide)
      (by decide) rfl).add (s := 0) (n := 10) (by decide) (by decide) (by decide) rfl).add
        (s := 20) (n := 5) (by decide) (by decide) (by decide) rfl)
  have honeSize : OneSizeGapTracker.Reachable ⟨[100, 0], 1, 4096, false⟩ :=
    ((OneSizeGapTracker.Reachable.init.add (s := 100) (n := 4096) (by decide) (by decide)
      (by decide)).add (s := 0) (n := 4096) (by decide) (by decide) (by decide)).allocate
        (n := 4096) (by decide) rfl
  obtain ⟨hiff, hiff'⟩ := reload_same_iff _ _
  exact ⟨(hiff hgeneric).mpr (by decide), (hiff' honeSize).mpr (by decide)⟩

/-- Three neighbours of `2 ^ 32` bytes are kept as one gap of size zero, which is saved and not
loaded. A tracker of one size that has handed out its only gap takes the size of the next one. -/
theorem reload_not_same : (∃ t : GenericGapTracker, t.Reachable ∧
      (run GenericGapTracker.step {} [.add 2 (2 ^ 31 - 1), .add (2 ^ 31 + 1) (2 ^ 31 - 1),
        .add 0 2]).2 = .ok t ∧ t.reload = .error .assertion) ∧
      ∃ t t' : OneSizeGapTracker, t.Reachable ∧
        (run OneSizeGapTracker.step {} [.add 0 4096, .allocate 4096]).2 = .ok t ∧
        t.reload = .ok t' ∧
        (run OneSizeGapTracker.step t [.add 0 8192, .wastedSpace]).1 = [.nothing, .space 4096] ∧
        (run OneSizeGapTracker.step t' [.add 0 8192, .wastedSpace]).1 =
          [.nothing, .space 8192] := by
  constructor
  · refine ⟨⟨[(0, 0)], [(0, [0])], false⟩, ?_, by decide +kernel, by decide +kernel⟩
    have hfirst : GenericGapTracker.Reachable
        ⟨[(2, 2 ^ 31 - 1)], [(2 ^ 31 - 1, [2])], false⟩ :=
      GenericGapTracker.Reachable.init.add (s := 2) (n := 2 ^ 31 - 1) (by decide) (by decide)
        (by decide) (by decide +kernel)
    have hsecond : GenericGapTracker.Reachable ⟨[(2, -2)], [(-2, [2])], false⟩ :=
      hfirst.add (s := 2 ^ 31 + 1) (n := 2 ^ 31 - 1) (by decide) (by decide) (by decide)
        (by decide +kernel)
    exact hsecond.add (s := 0) (n := 2) (by decide) (by decide) (by decide) (by decide +kernel)
  · have hreach : OneSizeGapTracker.Reachable ⟨[], 0, 4096, true⟩ :=
      (OneSizeGapTracker.Reachable.init.add (s := 0) (n := 4096) (by decide) (by decide)
        (by decide)).allocate (n := 4096) (by decide) rfl
    exact ⟨⟨[], 0, 4096, true⟩, {}, hreach, by decide +kernel, by decide +kernel,
      by decide +kernel, by decide +kernel⟩

end AndroidEmu.RamSnapshot
