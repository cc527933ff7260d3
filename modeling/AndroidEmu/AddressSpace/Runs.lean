import AndroidEmu.AddressSpace.Tiling

/-!
# Runs of the allocator

The ranges that were returned and not yet deallocated are kept next to the allocator. The only call
that can break the tiling is an `allocate_fixed` that straddles the end of the block it starts in.
-/

namespace AndroidEmu.AddressSpace

open CS Math AddressSpaceAllocator Checked List Heap

/-! ### Calls and runs -/

/-- The allocator, and the ranges returned and not yet deallocated. -/
structure Traced where
  allocator : AddressSpaceAllocator
  live : List (ℕ × ℕ)
  deriving DecidableEq

/-- The live ranges after a call that returned `r`. -/
def Op.track (live : List (ℕ × ℕ)) (r : ℤ) : Op → List (ℕ × ℕ)
  | .allocate _ size => if r = badOffset then live else (r.toNat, size) :: live
  | .allocateFixed _ size offset => if r = 0 then (offset, size) :: live else live
  | .deallocate offset => if r = 0 then live.filter (·.1 ≠ offset) else live
  | .reset => []

def step (s : Traced) (op : Op) : Checked (Traced × ℤ) := do
  let (a, r) ← s.allocator.call op
  return (⟨a, op.track s.live r⟩, r)

/-- `address_space_allocator_init` followed by the calls. -/
def runFromInit (heap : Heap) (size : ℕ) (capacity : ℤ) (ops : List Op) : Checked Traced := do
  let a ← AddressSpaceAllocator.init heap size capacity
  (run step ⟨a, []⟩ ops).2

/-- The calls with a positive size, `allocate_fixed` left out. -/
def Op.Basic : Op → Prop
  | .allocate _ size => 0 < size
  | .allocateFixed _ _ _ => False
  | .deallocate _ => True
  | .reset => True

/-- The calls that keep the blocks tiled: sizes are positive, and `allocate_fixed` does not straddle
a block. -/
def Op.Proper (s : Traced) : Op → Prop
  | .allocate _ size => 0 < size
  | .allocateFixed _ size offset => 0 < size ∧ ¬ Straddles s.allocator.inUse size offset
  | .deallocate _ => True
  | .reset => True

/-! ### The invariant -/

/-- The allocator is a good table whose used ranges are the live ones. -/
def Invariant (total : ℕ) (s : Traced) : Prop :=
  ∃ t, Represents s.allocator t ∧ t.Good total ∧ s.live.Perm (used t.blocks)

variable {total size offset : ℕ} {heap : Heap} {a : AddressSpaceAllocator} {t t' : BlockTable}
variable {s : Traced}

theorem BlockTable.Takes.used_perm (h : t.Takes total size offset t') :
    ((offset, size) :: used t.blocks).Perm (used t'.blocks) := by
  obtain ⟨pre, b, post, new, hb, hav, hnew, hb'⟩ := h.carves
  rw [hb, hb', used_append, used_append, used_append, used_cons_of_available hav, hnew.used_eq,
    append_assoc]
  exact perm_middle.symm

theorem BlockTable.Takes.bounds (hgood : t.Good total) (h : t.Takes total size offset t') :
    0 < size ∧ offset + size ≤ total := by
  obtain ⟨pre, b, post, new, hb, -, hnew, -⟩ := h.carves
  have hbounds := hgood.tiled.bounds (b := b) (by simp [hb])
  have := hnew.bounds
  omega

theorem badOffset_ne_of_le (h : offset + size ≤ total) (hlt : total < 2 ^ 63) :
    offset ≠ badOffset := by
  unfold badOffset
  omega

theorem seed_good (hpos : 0 < total) (hlt : total < 2 ^ 63)
    (hblocks : t.blocks = [.ofFields 0 total true]) (htotal : t.totalBytes = total)
    (hroom : (t.room : ℤ) = t.capacity) (hcap : 1 ≤ t.capacity) (hcap' : t.capacity < 2 ^ 31) :
    t.Good total where
  tiled := by
    have hsize : (AddressBlock.ofFields 0 total true).size = total := wrapNat_of_lt hlt
    rw [hblocks]
    refine ⟨⟨rfl, by omega, ?_⟩, .singleton _, hlt⟩
    rw [Segments.tiles_nil, hsize, Nat.zero_add]
  totalBytes := htotal
  room := hroom
  nonempty := by simp [hblocks]
  length_le := by simpa [hblocks] using hcap
  capacity_lt := hcap'

/-! ### What each call does -/

section

variable (hrep : Represents a t) (hgood : t.Good total)

include hrep hgood

theorem allocate_outcome (heap : Heap) (hpos : 0 < size) :
    a.allocate heap size = .error .outOfMemory ∨
      (∃ a', a.allocate heap size = .ok (a', badOffset) ∧ Represents a' t ∧
        ∀ b ∈ t.blocks, b.available = true → b.size < size) ∨
      ∃ a' t' offset, a.allocate heap size = .ok (a', offset) ∧ Represents a' t' ∧
        t.Takes total size offset t' := by
  have href := allocate_refines heap size hrep
  rcases BlockTable.allocate_cases hgood heap hpos with
    herr | ⟨hnone, hsmall⟩ | ⟨t', offset, hok, htakes⟩
  · exact .inl (href.eq_error_left herr)
  · obtain ⟨⟨a', r⟩, ha, hrep', rfl⟩ := href.exists_ok_left hnone
    exact .inr (.inl ⟨a', ha, hrep', hsmall⟩)
  · obtain ⟨⟨a', r⟩, ha, hrep', rfl⟩ := href.exists_ok_left hok
    exact .inr (.inr ⟨a', t', _, ha, hrep', htakes⟩)

theorem allocateFixed_outcome (heap : Heap) (hcap : a.capacity + 1 < 2 ^ 31) (hpos : 0 < size)
    (hns : ¬ Straddles a.inUse size offset) :
    a.allocateFixed heap size offset = .error .outOfMemory ∨
      (∃ a', a.allocateFixed heap size offset = .ok (a', -1) ∧ Represents a' t ∧
        ¬ Inside t.blocks size offset) ∨
      ∃ a' t', a.allocateFixed heap size offset = .ok (a', 0) ∧ Represents a' t' ∧
        t.Takes total size offset t' := by
  have href := allocateFixed_refines heap size offset hrep
  rw [hrep.capacity] at hcap
  rw [hrep.inUse_eq] at hns
  rcases BlockTable.allocateFixed_cases hgood heap hcap hpos hns with
    herr | ⟨hnone, hinside⟩ | ⟨t', hok, htakes⟩
  · exact .inl (href.eq_error_left herr)
  · obtain ⟨⟨a', r⟩, ha, hrep', rfl⟩ := href.exists_ok_left hnone
    exact .inr (.inl ⟨a', ha, hrep', hinside⟩)
  · obtain ⟨⟨a', r⟩, ha, hrep', rfl⟩ := href.exists_ok_left hok
    exact .inr (.inr ⟨a', t', ha, hrep', htakes⟩)

theorem deallocate_outcome (offset : ℕ) :
    (∃ a', a.deallocate offset = .ok (a', EINVAL) ∧ Represents a' t ∧
        ∀ r ∈ used t.blocks, r.1 ≠ offset) ∨
      ∃ pre b post a' t', t.blocks = pre ++ b :: post ∧ b.available = false ∧ b.offset = offset ∧
        a.deallocate offset = .ok (a', 0) ∧ Represents a' t' ∧ t'.Good total ∧
        used t'.blocks = used pre ++ used post ∧ t'.capacity = t.capacity := by
  have href := deallocate_refines offset hrep
  rcases BlockTable.deallocate_cases hgood offset with
    ⟨hnone, hfresh⟩ | ⟨pre, b, post, t', hb, hav, hoff, hok, hgood', hused, hcap⟩
  · obtain ⟨⟨a', r⟩, ha, hrep', rfl⟩ := href.exists_ok_left hnone
    exact .inl ⟨a', ha, hrep', hfresh⟩
  · obtain ⟨⟨a', r⟩, ha, hrep', rfl⟩ := href.exists_ok_left hok
    exact .inr ⟨pre, b, post, a', t', hb, hav, hoff, ha, hrep', hgood', hused, hcap⟩

theorem reset_outcome : ∃ a', a.reset = .ok a' ∧ Represents a' t.reset ∧ t.reset.Good total ∧
      used t.reset.blocks = [] := by
  obtain ⟨a', ha, hrep'⟩ := reset_refines hrep
  obtain ⟨b, bs, hb⟩ := exists_cons_of_length_pos hgood.nonempty
  have hbounds := hgood.tiled.bounds (b := b) (by simp [hb])
  have hone := hgood.nonempty
  have hle := hgood.length_le
  refine ⟨a', ha, hrep', seed_good (by omega) hgood.tiled.total_lt ?_ hgood.totalBytes hgood.room
    (show 1 ≤ t.capacity by omega) hgood.capacity_lt, used_cons_of_available rfl⟩
  rw [BlockTable.reset, hgood.totalBytes]

end

theorem filter_used_perm {b : AddressBlock} {live : List (ℕ × ℕ)}
    (htiled : Tiled total (pre ++ b :: post)) (hav : b.available = false)
    (hlive : live.Perm (used (pre ++ b :: post))) :
    (live.filter (·.1 ≠ b.offset)).Perm (used pre ++ used post) := by
  obtain ⟨-, hafter, hbefore⟩ := pairwise_append.mp htiled.tiles.pairwise
  have hpre : ∀ r ∈ used pre, r.1 ≠ b.offset := by
    intro r hr
    obtain ⟨c, hc, -, rfl⟩ := mem_used.mp hr
    have hend := hbefore c hc b (by simp)
    have hpos := (htiled.bounds (mem_append_left _ hc)).1
    omega
  have hpost : ∀ r ∈ used post, r.1 ≠ b.offset := by
    intro r hr
    obtain ⟨c, hc, -, rfl⟩ := mem_used.mp hr
    have hend := (pairwise_cons.mp hafter).1 c hc
    have hpos := (htiled.bounds (b := b) (by simp)).1
    omega
  refine (hlive.filter _).trans (Perm.of_eq ?_)
  rw [used_append, used_cons_of_unavailable hav, filter_append, filter_cons_of_neg (by simp),
    filter_eq_self.mpr (by simpa using hpre), filter_eq_self.mpr (by simpa using hpost)]

theorem step_invariant (h : Invariant total s) (op : Op) (hop : op.Proper s)
    (hcap : op.Basic ∨ s.allocator.capacity + 1 < 2 ^ 31) : (step s op).Ensures
      (fun p => Invariant total p.1 ∧ (p.1.allocator.capacity = s.allocator.capacity ∨
        ∃ c, p.1.allocator.capacity = c + c))
      (· = .outOfMemory) := by
  obtain ⟨t, hrep, hgood, hlive⟩ := h
  have hlt := hgood.tiled.total_lt
  cases op with
  | allocate heap size =>
    simp only [step, call]
    rcases allocate_outcome hrep hgood heap hop with
      herr | ⟨a', hok, hrep', -⟩ | ⟨a', t', offset, hok, hrep', htakes⟩
    · rw [herr]
      rfl
    · rw [hok]
      refine ⟨⟨t, hrep', hgood, ?_⟩, .inl ?_⟩
      · simpa [Op.track] using hlive
      · exact hrep'.capacity.trans hrep.capacity.symm
    · have hne := badOffset_ne_of_le (htakes.bounds hgood).2 hlt
      rw [hok]
      refine ⟨⟨t', hrep', htakes.good, ?_⟩, ?_⟩
      · simpa [Op.track, hne] using (hlive.cons _).trans htakes.used_perm
      · rw [hrep'.capacity, hrep.capacity]
        exact htakes.capacity
  | allocateFixed heap size offset =>
    obtain ⟨hpos, hns⟩ := hop
    simp only [step, call]
    rcases allocateFixed_outcome hrep hgood heap (hcap.resolve_left id) hpos hns with
      herr | ⟨a', hok, hrep', -⟩ | ⟨a', t', hok, hrep', htakes⟩
    · rw [herr]
      rfl
    · rw [hok]
      refine ⟨⟨t, hrep', hgood, ?_⟩, .inl ?_⟩
      · simpa [Op.track] using hlive
      · exact hrep'.capacity.trans hrep.capacity.symm
    · rw [hok]
      refine ⟨⟨t', hrep', htakes.good, ?_⟩, ?_⟩
      · simpa [Op.track] using (hlive.cons _).trans htakes.used_perm
      · rw [hrep'.capacity, hrep.capacity]
        exact htakes.capacity
  | deallocate offset =>
    simp only [step, call]
    rcases deallocate_outcome hrep hgood offset with
      ⟨a', hok, hrep', -⟩ |
        ⟨pre, b, post, a', t', hb, hav, rfl, hok, hrep', hgood', hused, hcapacity⟩
    · rw [hok]
      refine ⟨⟨t, hrep', hgood, ?_⟩, .inl ?_⟩
      · simpa [Op.track, EINVAL] using hlive
      · exact hrep'.capacity.trans hrep.capacity.symm
    rw [hok]
    refine ⟨⟨t', hrep', hgood', ?_⟩, .inl ?_⟩
    · have htiled := hgood.tiled
      rw [hb] at hlive htiled
      rw [hused]
      simpa [Op.track] using filter_used_perm htiled hav hlive
    · rw [hrep'.capacity, hrep.capacity, hcapacity]
  | reset =>
    simp only [step, call]
    obtain ⟨a', hok, hrep', hgood', hused⟩ := reset_outcome hrep hgood
    rw [hok]
    refine ⟨⟨_, hrep', hgood', ?_⟩, .inl ?_⟩
    · rw [hused]
      exact Perm.refl []
    · rw [hrep'.capacity, hrep.capacity]
      rfl

theorem init_invariant {capacity : ℤ} (hpos : 0 < size) (hlt : size < 2 ^ 63)
    (hcap : capacity < 2 ^ 31) (h : init heap size capacity = .ok a) :
    Invariant size ⟨a, []⟩ ∧ a.capacity = capacity := by
  obtain ⟨hone, hrep⟩ := init_refines hcap h
  have htotal : (BlockTable.init size capacity).totalBytes = size := wrapNat_of_lt (by omega)
  have hroom : ((BlockTable.init size capacity).room : ℤ) = capacity := by
    simp only [BlockTable.init]
    omega
  refine ⟨⟨_, hrep, seed_good hpos hlt rfl htotal hroom hone hcap, ?_⟩, hrep.capacity⟩
  exact Perm.refl []

/-! ### Sound states -/

/-- A byte of the address range that is in no live range. -/
def FreeByte (total : ℕ) (live : List (ℕ × ℕ)) (p : ℕ) : Prop :=
  p < total ∧ ∀ r ∈ live, ¬ (r.1 ≤ p ∧ p < r.1 + r.2)

/-- What callers rely on: the blocks tile the range and are merged, live ranges are disjoint,
allocation fails only for lack of room, deallocation exactly when no live range starts at the
offset, and releasing everything restores the seed block. -/
structure Sound (total : ℕ) (s : Traced) : Prop where
  first : s.allocator.inUse.head?.map AddressBlock.offset = some 0
  size_pos : ∀ b ∈ s.allocator.inUse, 0 < b.size
  contiguous : s.allocator.inUse.IsChain fun b c => c.offset = b.offset + b.size
  sum_size : (s.allocator.inUse.map AddressBlock.size).sum = s.allocator.totalBytes
  totalBytes : s.allocator.totalBytes = total
  merged : s.allocator.inUse.IsChain fun b c => ¬ (b.available = true ∧ c.available = true)
  live_disjoint : s.live.Pairwise fun r q => r.1 + r.2 ≤ q.1 ∨ q.1 + q.2 ≤ r.1
  allocate_fails : ∀ heap size a', 0 < size → s.allocator.allocate heap size = .ok (a', badOffset) →
    ¬ ∃ p, ∀ q, p ≤ q → q < p + size → FreeByte total s.live q
  deallocate_fails_iff : ∀ offset,
    (∃ a', s.allocator.deallocate offset = .ok (a', EINVAL)) ↔ ∀ r ∈ s.live, r.1 ≠ offset
  deallocate_unchanged : ∀ offset a',
    s.allocator.deallocate offset = .ok (a', EINVAL) → a' = s.allocator
  all_released : s.live = [] → s.allocator.inUse = [.ofFields 0 total true]

theorem deallocateLoop_unchanged {a' : AddressSpaceAllocator} {n i : ℕ}
    (h : deallocateLoop a offset bs n i = .ok (a', EINVAL)) : a' = a := by
  induction bs generalizing n i with
  | nil =>
    cases n with
    | zero => exact (pair_inj h).1.symm
    | succ n => simp [deallocateLoop] at h
  | cons b bs ih =>
    cases n with
    | zero => exact (pair_inj h).1.symm
    | succ n =>
      simp only [deallocateLoop] at h
      split_ifs at h with hoff hav
      · exact (pair_inj h).1.symm
      · obtain ⟨a'', -, h⟩ := bind_eq_ok.mp h
        have := (pair_inj h).2
        simp [EINVAL] at this
      · exact ih h

theorem freeByte_iff {live : List (ℕ × ℕ)} {p : ℕ} (htiled : Tiled total bs)
    (hlive : live.Perm (used bs)) : FreeByte total live p ↔ AvailableAt bs p := by
  have hswap : (∀ r ∈ live, ¬ (r.1 ≤ p ∧ p < r.1 + r.2)) ↔
      ∀ r ∈ used bs, ¬ (r.1 ≤ p ∧ p < r.1 + r.2) :=
    forall_congr' fun r => by rw [hlive.mem_iff]
  constructor
  · rintro ⟨hp, hfree⟩
    exact (htiled.availableAt_iff hp).mpr (hswap.mp hfree)
  · intro hav
    obtain ⟨b, hb, -, hcover⟩ := id hav
    have hp : p < total := lt_of_lt_of_le hcover.2 (htiled.bounds hb).2
    exact ⟨hp, hswap.mpr ((htiled.availableAt_iff hp).mp hav)⟩

theorem Invariant.sound (h : Invariant total s) : Sound total s := by
  obtain ⟨t, hrep, hgood, hlive⟩ := h
  have hin := hrep.inUse_eq
  have htiles := hgood.tiled.tiles
  have hlt := hgood.tiled.total_lt
  have htotal : s.allocator.totalBytes = total := hrep.totalBytes.trans hgood.totalBytes
  obtain ⟨b, bs, hb⟩ := exists_cons_of_length_pos hgood.nonempty
  constructor
  case first =>
    rw [hb] at hin htiles
    rw [hin]
    exact congrArg some htiles.start_head
  case size_pos => exact fun b hb => (hgood.tiled.bounds (hin ▸ hb)).1
  case contiguous => exact hin ▸ htiles.isChain
  case sum_size =>
    have := htiles.add_sum_len
    rw [hin]
    omega
  case totalBytes => exact htotal
  case merged => exact hin ▸ hgood.tiled.merged
  case live_disjoint =>
    refine hlive.symm.pairwise (hgood.tiled.used_disjoint.imp fun h => .inl h) ?_
    exact fun h => h.symm
  case allocate_fails =>
    rintro heap size a' hpos hbad ⟨p, hfree⟩
    rcases allocate_outcome hrep hgood heap hpos with
      herr | ⟨-, -, -, hsmall⟩ | ⟨a'', t', offset, hok, -, htakes⟩
    · rw [herr] at hbad
      simp at hbad
    · obtain ⟨b, hb, hav, hlo, hhi⟩ := htiles.exists_free_segment hgood.tiled.merged hpos
        fun q hq hq' => (freeByte_iff hgood.tiled hlive).mp (hfree q hq hq')
      have := hsmall b hb hav
      omega
    · rw [hok] at hbad
      exact badOffset_ne_of_le (htakes.bounds hgood).2 hlt
        (pair_inj hbad).2
  case deallocate_fails_iff =>
    intro offset
    rcases deallocate_outcome hrep hgood offset with
      ⟨a', hok, -, hfresh⟩ | ⟨pre, b, post, a', t', hb, hav, hoff, hok, -⟩
    · exact ⟨fun _ r hr => hfresh r (hlive.mem_iff.mp hr), fun _ => ⟨a', hok⟩⟩
    constructor
    · rintro ⟨a'', hfail⟩
      rw [hok] at hfail
      simp [EINVAL] at hfail
    · intro hfresh
      refine absurd hoff (hfresh (b.offset, b.size) (hlive.mem_iff.mpr ?_))
      exact mem_used.mpr ⟨b, by simp [hb], hav, rfl⟩
  case deallocate_unchanged =>
    intro offset a' hfail
    obtain ⟨_, -, hfail⟩ := bind_eq_ok.mp hfail
    exact deallocateLoop_unchanged hfail
  case all_released =>
    intro hnone
    rw [hnone] at hlive
    have hbounds := hgood.tiled.bounds (b := b) (by simp [hb])
    rw [hin]
    exact hgood.tiled.eq_seed (by omega) hlive.symm.eq_nil

theorem Invariant.live_bounds (h : Invariant total s) {r : ℕ × ℕ} (hr : r ∈ s.live) :
    0 < r.2 ∧ r.1 + r.2 ≤ total ∧ total < 2 ^ 63 := by
  obtain ⟨t, -, hgood, hlive⟩ := h
  obtain ⟨b, hb, -, rfl⟩ := mem_used.mp (hlive.mem_iff.mp hr)
  have hbounds := hgood.tiled.bounds hb
  exact ⟨hbounds.1, hbounds.2, hgood.tiled.total_lt⟩

theorem step_allocate_live {s' : Traced} {r : ℤ} (h : step s (.allocate heap size) = .ok (s', r)) :
    ∃ offset : ℕ, r = offset ∧
      s'.live = if offset = badOffset then s.live else (offset, size) :: s.live := by
  obtain ⟨⟨a, r'⟩, hcall, h⟩ := bind_eq_ok.mp h
  obtain ⟨⟨a', offset⟩, -, hcall⟩ := map_eq_ok.mp hcall
  obtain ⟨rfl, rfl⟩ := Prod.mk.inj hcall
  obtain ⟨rfl, rfl⟩ := pair_inj h
  exact ⟨offset, rfl, by simp [Op.track]⟩

theorem Op.Basic.proper {op : Op} (h : op.Basic) : op.Proper s := by
  cases op with
  | allocate heap size => exact h
  | allocateFixed heap size offset => exact h.elim
  | deallocate offset => trivial
  | reset => trivial

/-- Every run of calls other than `allocate_fixed`, with positive sizes, on an
allocator of a positive size below `2 ^ 63`: no assertion fails (only a refused
memory request can stop the run), and every state reached is sound. -/
theorem runFromInit_sound (heap : Heap) (total : ℕ) (capacity : ℤ) (ops : List Op)
    (hpos : 0 < total) (hlt : total < 2 ^ 63) (hcap : 1 ≤ capacity) (hcap' : capacity < 2 ^ 31)
    (hops : ∀ op ∈ ops, op.Basic) :
    (runFromInit heap total capacity ops).Ensures (Sound total) (· = .outOfMemory) := by
  refine (init_ensures heap total hcap).bind fun a hinit _ => ?_
  have hmeets : Meets step (fun _ op => op.Basic) ⟨a, []⟩ ops :=
    meets_of_forall ops _ fun op hop _ => hops op hop
  have hstep (s : Traced) (op : Op) (hs : Invariant total s) (hop : op.Basic) :=
    (step_invariant hs op hop.proper (.inl hop)).mono fun _ h => h.1
  exact (run_invariant hstep ops ⟨a, []⟩ (init_invariant hpos hlt hcap' hinit).1 hmeets).mono
    fun s hs => hs.sound

theorem runFromInit_sound_example : (runFromInit Heap.ample 100 1
        [.allocate Heap.ample 10, .allocate Heap.ample 20, .deallocate 90, .reset]).Ensures
      (Sound 100) (· = .outOfMemory) :=
  runFromInit_sound ample 100 1 _ (by decide) (by decide) (by decide) (by decide)
    (by simp [Op.Basic])

/-- An allocator of size zero stops at the assertion on block sizes. -/
theorem runFromInit_zero_size : (∀ op ∈ [Op.allocate Heap.ample 1], op.Basic) ∧
      runFromInit Heap.ample 0 1 [.allocate Heap.ample 1] = .error .assertion :=
  ⟨by simp [Op.Basic], by decide⟩

/-! ### Allocating at an offset -/

/-- What `allocate_fixed` should do: return `0` exactly when the range lies inside one available
block; then the range becomes one unavailable block; no other byte changes; and the blocks still
tile the range. -/
def FixedSpec (total : ℕ) (a : AddressSpaceAllocator) (size offset : ℕ) : Prop :=
  ∀ heap, (a.allocateFixed heap size offset).Ensures
    (fun p =>
      (p.2 = 0 ↔ Inside a.inUse size offset) ∧
      (p.2 = 0 → (∃ b ∈ p.1.inUse, b.offset = offset ∧ b.size = size ∧ b.available = false) ∧
        ∀ q, ¬ (offset ≤ q ∧ q < offset + size) →
          (AvailableAt p.1.inUse q ↔ AvailableAt a.inUse q)) ∧
      (p.2 ≠ 0 → p.1 = a) ∧
      TilesFrom 0 p.1.inUse total ∧ p.1.totalBytes = total)
    (· = .outOfMemory)

def ReachedProperly (heap : Heap) (total : ℕ) (capacity : ℤ) (ops : List Op) (s : Traced) : Prop :=
  ∃ a, AddressSpaceAllocator.init heap total capacity = .ok a ∧
    Meets step (fun s op => op.Proper s) ⟨a, []⟩ ops ∧ (run step ⟨a, []⟩ ops).2 = .ok s

theorem allocateFixed_unchanged {a' : AddressSpaceAllocator} {r : ℤ}
    (h : a.allocateFixed heap size offset = .ok (a', r)) (hr : r ≠ 0) : a' = a := by
  obtain ⟨i, -, h⟩ := bind_eq_ok.mp h
  cases i with
  | none => exact (pair_inj h).1.symm
  | some i =>
    obtain ⟨_, -, h⟩ := bind_eq_ok.mp h
    obtain ⟨_, -, h⟩ := bind_eq_ok.mp h
    obtain ⟨_, -, h⟩ := bind_eq_ok.mp h
    obtain ⟨_, -, h⟩ := bind_eq_ok.mp h
    obtain ⟨_, -, h⟩ := bind_eq_ok.mp h
    exact absurd (pair_inj h).2.symm hr

namespace BlockTable.Takes

section

variable (h : t.Takes total size offset t')

include h

theorem inside : Inside t.blocks size offset := by
  obtain ⟨pre, b, post, new, hb, hav, hnew, -⟩ := h.carves
  obtain ⟨hlo, -, hhi⟩ := hnew.bounds
  exact ⟨b, by simp [hb], hav, hlo, hhi⟩

theorem exists_block :
    ∃ b ∈ t'.blocks, b.offset = offset ∧ b.size = size ∧ b.available = false := by
  obtain ⟨pre, b, post, new, -, -, hnew, hb'⟩ := h.carves
  obtain ⟨left, x, right, rfl, hoff, hsize, hx, -⟩ := hnew.taken
  exact ⟨x, by simp [hb'], hoff, hsize, hx⟩

theorem availableAt_iff {q : ℕ}
    (hq : ¬ (offset ≤ q ∧ q < offset + size)) :
    AvailableAt t'.blocks q ↔ AvailableAt t.blocks q := by
  obtain ⟨pre, b, post, new, hb, hav, hnew, hb'⟩ := h.carves
  have hpart : AvailableAt new q ↔ AvailableAt [b] q := by
    obtain ⟨left, x, right, hsplit, rfl, rfl, -, hall⟩ := hnew.taken
    constructor
    · rintro ⟨y, hy, -, hcover⟩
      have hbounds := hnew.tiles.bounds hy
      exact ⟨b, by simp, hav, by have := hcover.1; omega, by have := hcover.2; omega⟩
    · rintro ⟨c, hc, -, hcover⟩
      obtain rfl := mem_singleton.mp hc
      obtain ⟨y, hy, hycover⟩ := hnew.tiles.exists_covers hcover.1 hcover.2
      refine ⟨y, hy, ?_, hycover⟩
      rw [hsplit, mem_append, mem_cons] at hy
      rcases hy with hy | rfl | hy
      · exact hall y (mem_append_left right hy)
      · exact absurd hycover hq
      · exact hall y (mem_append_right left hy)
  rw [hb, hb', append_cons]
  simp only [Segments.free_append, hpart]

end

end BlockTable.Takes

theorem ReachedProperly.invariant {capacity : ℤ} {ops : List Op}
    (h : ReachedProperly heap total capacity ops s) (hpos : 0 < total) (hlt : total < 2 ^ 63)
    (hcap : capacity + 1 < 2 ^ 31) : Invariant total s ∧ s.allocator.capacity + 1 < 2 ^ 31 := by
  obtain ⟨a, hinit, hmeets, hrun⟩ := h
  obtain ⟨hinv, hcapacity⟩ := init_invariant hpos hlt (by omega) hinit
  have hstep (s : Traced) (op : Op) (hs : Invariant total s ∧ s.allocator.capacity + 1 < 2 ^ 31)
      (hop : op.Proper s) :
      (step s op).Ensures (fun p => Invariant total p.1 ∧ p.1.allocator.capacity + 1 < 2 ^ 31)
        (· = .outOfMemory) := by
    refine (step_invariant hs.1 op hop (.inr hs.2)).mono fun p hp => ⟨hp.1, ?_⟩
    obtain ⟨t, hrep, hgood, -⟩ := hp.1
    have hlt := hgood.capacity_lt
    have heq := hrep.capacity
    rcases hp.2 with hsame | ⟨c, hdouble⟩
    · omega
    · omega
  exact (run_invariant hstep ops ⟨a, []⟩ ⟨hinv, hcapacity ▸ hcap⟩ hmeets).of_ok hrun

/-- In a good state `allocate_fixed` meets its specification for every range that does
not straddle the end of a block. -/
theorem fixedSpec_of_not_straddles (hrep : Represents a t) (hgood : t.Good total)
    (hcap : a.capacity + 1 < 2 ^ 31) (hpos : 0 < size)
    (hns : ¬ Straddles a.inUse size offset) : FixedSpec total a size offset := by
  intro heap
  have hin := hrep.inUse_eq
  rcases allocateFixed_outcome hrep hgood heap hcap hpos hns with
    herr | ⟨a', hok, hrep', hout⟩ | ⟨a', t', hok, hrep', htakes⟩
  · rw [herr]
    rfl
  · have hsame := allocateFixed_unchanged hok (by decide)
    rw [hok]
    refine ⟨by simpa [hin] using hout, fun h => absurd h (by simp), fun _ => hsame, ?_,
      hrep'.totalBytes.trans hgood.totalBytes⟩
    exact hrep'.inUse_eq ▸ hgood.tiled.tiles
  · rw [hok]
    refine ⟨by simpa [hin] using htakes.inside, fun _ => ⟨?_, fun q hq => ?_⟩,
      fun h => absurd rfl h, ?_, hrep'.totalBytes.trans htakes.good.totalBytes⟩
    · exact hrep'.inUse_eq ▸ htakes.exists_block
    · rw [hrep'.inUse_eq, hin]
      exact htakes.availableAt_iff hq
    · exact hrep'.inUse_eq ▸ htakes.good.tiled.tiles

theorem not_straddles_of_fixedSpec (hrep : Represents a t) (hgood : t.Good total)
    (hcap : a.capacity + 1 < 2 ^ 30) (hpos : 0 < size) (hspec : FixedSpec total a size offset) :
    ¬ Straddles a.inUse size offset := by
  rw [hrep.inUse_eq]
  intro hs
  rw [hrep.capacity] at hcap
  have href := allocateFixed_refines ample size offset hrep
  obtain ⟨t', hok⟩ := BlockTable.allocateFixed_of_straddles hgood hcap hs
  obtain ⟨⟨a', r⟩, ha, -, rfl⟩ := href.exists_ok_left hok
  have hinside := ((hspec ample).of_ok ha).1.mp rfl
  rw [hrep.inUse_eq] at hinside
  exact hgood.tiled.not_inside_of_straddles hs hpos hinside

/-- In every state reached by proper calls, `allocate_fixed` meets its specification
for every range that does not straddle the end of an available block; and, while the
array can still double, only for those. -/
theorem allocateFixed_spec_iff (heap : Heap) (total : ℕ) (capacity : ℤ) (ops : List Op)
    (s : Traced) (htotal : 0 < total) (hlt : total < 2 ^ 63) (hcap : capacity + 1 < 2 ^ 31)
    (hs : ReachedProperly heap total capacity ops s) (size offset : ℕ) (hpos : 0 < size) :
    (¬ Straddles s.allocator.inUse size offset → FixedSpec total s.allocator size offset) ∧
      (s.allocator.capacity + 1 < 2 ^ 30 → FixedSpec total s.allocator size offset →
        ¬ Straddles s.allocator.inUse size offset) := by
  obtain ⟨⟨t, hrep, hgood, -⟩, hcapacity⟩ := hs.invariant htotal hlt hcap
  exact ⟨fixedSpec_of_not_straddles hrep hgood hcapacity hpos,
    fun hsmall => not_straddles_of_fixedSpec hrep hgood hsmall hpos⟩

theorem allocateFixed_spec_example :
    ∃ s, ReachedProperly Heap.ample 100 2 [.allocateFixed Heap.ample 20 30] s ∧
      FixedSpec 100 s.allocator 10 60 := by
  have hs : ReachedProperly ample 100 2 [.allocateFixed ample 20 30] _ :=
    ⟨_, rfl, ⟨⟨by decide, by decide⟩, fun _ _ _ => trivial⟩, rfl⟩
  refine ⟨_, hs, (allocateFixed_spec_iff ample 100 2 _ _ (by decide) (by decide) (by decide) hs
    10 60 (by decide)).1 (by decide)⟩

/-- Fifty bytes at offset sixty of a fresh allocator of a hundred bytes: the request is
granted although it ends ten bytes past the only block, and the remainder of minus
ten bytes becomes an available block of almost `2 ^ 63` bytes. -/
theorem allocateFixed_past_end :
    ∃ a, AddressSpaceAllocator.init Heap.ample 100 4 = .ok a ∧ ¬ FixedSpec 100 a 50 60 := by
  refine ⟨_, rfl, fun hspec => ?_⟩
  have hok : (AddressSpaceAllocator.allocateFixed ample ⟨.ofFields 0 100 true ::
      List.replicate 3 (.ofFields 0 0 false), 1, 4, 100⟩ 50 60) =
      .ok (⟨[.ofFields 0 60 true, .ofFields 60 50 false, .ofFields 110 (2 ^ 63 - 10) true,
        .ofFields 0 0 false], 3, 4, 100⟩, 0) := by decide
  have hinside := ((hspec ample).of_ok hok).1.mp rfl
  revert hinside
  decide

/-! ### Order -/

/-- The live ranges determine the blocks, whatever calls they come from. -/
theorem blocks_eq_of_live_perm (heap heap' : Heap) (total : ℕ) (capacity capacity' : ℤ)
    (ops ops' : List Op) (s s' : Traced) (htotal : 0 < total) (hlt : total < 2 ^ 63)
    (hcap : capacity + 1 < 2 ^ 31) (hcap' : capacity' + 1 < 2 ^ 31)
    (hs : ReachedProperly heap total capacity ops s)
    (hs' : ReachedProperly heap' total capacity' ops' s') (hlive : s.live.Perm s'.live) :
    s.allocator.inUse = s'.allocator.inUse := by
  obtain ⟨⟨t, hrep, hgood, hused⟩, -⟩ := hs.invariant htotal hlt hcap
  obtain ⟨⟨t', hrep', hgood', hused'⟩, -⟩ := hs'.invariant htotal hlt hcap'
  rw [hrep.inUse_eq, hrep'.inUse_eq]
  exact hgood.tiled.ext hgood'.tiled (hused.symm.trans (hlive.trans hused'))

/-- A range between two that are released, the later one first. -/
theorem blocks_eq_of_live_perm_example : ∃ s s',
    ReachedProperly Heap.ample 100 4 [.allocateFixed Heap.ample 20 70] s ∧
      ReachedProperly Heap.ample 100 4 [.allocate Heap.ample 10, .allocate Heap.ample 20,
        .allocate Heap.ample 5, .deallocate 65, .deallocate 90] s' ∧
      s.allocator.inUse = s'.allocator.inUse := by
  have hs : ReachedProperly ample 100 4 [.allocateFixed ample 20 70] _ :=
    ⟨_, rfl, ⟨⟨by decide, by decide⟩, fun _ _ _ => trivial⟩, rfl⟩
  have hs' : ReachedProperly ample 100 4 [.allocate ample 10, .allocate ample 20,
      .allocate ample 5, .deallocate 65, .deallocate 90] _ :=
    ⟨_, rfl, meets_of_forall _ _ (by simp [Op.Proper]), rfl⟩
  exact ⟨_, _, hs, hs', blocks_eq_of_live_perm ample ample 100 4 4 _ _ _ _ (by decide) (by decide)
    (by decide) (by decide) hs hs' (by decide)⟩

end AndroidEmu.AddressSpace
