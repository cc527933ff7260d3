import AndroidEmu.AddressSpace.BlockTable

/-!
# The array computes the list operations

An allocator represents a table when its array starts with the blocks of the table. The unused
entries never matter, and an array that is shorter than its `capacity` is written past its end
exactly when the blocks no longer fit.
-/

namespace AndroidEmu.AddressSpace

open CS AddressSpaceAllocator Checked List AddressBlock Except

/-- The allocator's array starts with the blocks of the table. -/
structure Represents (a : AddressSpaceAllocator) (t : BlockTable) : Prop where
  blocks : ∃ junk, a.blocks = t.blocks ++ junk ∧ t.room = t.blocks.length + junk.length
  size : a.size = t.blocks.length
  capacity : a.capacity = t.capacity
  totalBytes : a.totalBytes = t.totalBytes
  size_pos : 1 ≤ t.blocks.length
  size_le : (t.blocks.length : ℤ) ≤ t.capacity
  capacity_lt : t.capacity < 2 ^ 31

variable {heap : Heap} {a : AddressSpaceAllocator} {t : BlockTable}
variable {pre post : List AddressBlock} {b : AddressBlock} {size offset : ℕ}

theorem Represents.inUse_eq (h : Represents a t) : a.inUse = t.blocks := by
  obtain ⟨junk, hjunk, _⟩ := h.blocks
  rw [inUse, hjunk, h.size, take_left]

/-! ### Growing the array -/

variable {c base capacity : ℤ}

theorem nonneg_of_grants (h : heap.grants (arrayBytes c) = true) (hlo : -2 ^ 31 ≤ c) : 0 ≤ c := by
  have hlt := Heap.lt_of_grants h
  unfold arrayBytes at hlt
  omega

theorem wrapInt_double (hlo : 1 ≤ base) (hhi : base < 2 ^ 31)
    (h : 0 ≤ wrapInt (base + base)) : wrapInt (base + base) = base + base := by
  by_cases hsmall : base + base < 2 ^ 31
  · exact wrapInt_of_bounds (by omega) hsmall
  exfalso
  have hneg : wrapInt (base + base) = base + base - 2 ^ 32 := by
    unfold wrapInt
    rw [← Int.sub_bmod_right]
    exact Int.bmod_eq_of_le (by norm_num; omega) (by norm_num; omega)
  omega

section

variable (h : Represents a t)

include h

theorem grow_refines (hbase : t.capacity ≤ base ∨ base < 1) (hlt : base < 2 ^ 31) : Rel
      (fun a' t' => Represents a' t' ∧ t'.blocks = t.blocks ∧ 1 ≤ base ∧ t'.capacity = base + base)
      (a.grow heap base) (t.grow heap base) := by
  unfold grow BlockTable.grow growCapacity
  simp only [bind_assoc]
  refine Rel.check _ fun hpos => ?_
  simp only [pure_eq_ok, ok_bind, reallocBlocks]
  by_cases hgrant : heap.grants (arrayBytes (wrapInt (base + base))) = true
  · have hcap := h.size_le
    have hdouble := wrapInt_double hpos hlt (nonneg_of_grants hgrant (neg_le_wrapInt _))
    obtain ⟨junk, hblocks, hroom⟩ := h.blocks
    simp only [hgrant, if_true, ok_bind]
    refine .ok ⟨⟨?_, h.size, rfl, h.totalBytes, h.size_pos, ?_, wrapInt_lt _⟩, rfl, hpos, hdouble⟩
    · have hfit : t.blocks.length ≤ (wrapInt (base + base)).toNat := by omega
      refine ⟨junk.take ((wrapInt (base + base)).toNat - t.blocks.length) ++
        List.replicate ((wrapInt (base + base)).toNat - a.blocks.length) (.ofFields 0 0 false),
        ?_, ?_⟩
      · simp only [hblocks, take_append, take_of_length_le hfit, append_assoc]
      · simp only [hblocks, length_append, length_take, length_replicate]
        omega
    · change (t.blocks.length : ℤ) ≤ wrapInt (base + base)
      omega
  · simp only [hgrant]
    exact .error _

omit h in
theorem memmove_gap (pre : List AddressBlock) (b : AddressBlock) (post junk : List AddressBlock)
    (k : ℕ) : memmove (pre ++ b :: post ++ junk) (pre.length + 1 + k) (pre.length + 1) post.length =
      if k ≤ junk.length then .ok (pre ++ b :: ((post ++ junk).take k ++ post ++ junk.drop k))
      else .error .outOfBounds := by
  by_cases hk : k ≤ junk.length
  · have hopen := memmove_open (pre ++ [b]) (post ++ junk) (n := post.length) (k := k)
      (by simp only [length_append]; omega)
    simp only [length_append, length_singleton, append_assoc, singleton_append] at hopen
    simp only [if_pos hk, append_assoc, cons_append, hopen, take_left,
      Nat.add_comm k, drop_length_add_append]
  · rw [if_neg hk]
    exact memmove_of_lt (by simp only [length_append, length_cons]; omega)

section

variable (hb : t.blocks = pre ++ b :: post)

include hb

/-- Growing on demand and opening a gap of `k` entries after `b`, before any
continuation that fills the gap. -/
theorem reserve_refines {γ δ : Type} {S : γ → δ → Prop}
    {f : AddressSpaceAllocator → List AddressBlock → Checked γ} {g : BlockTable → Checked δ}
    {full : Prop} [Decidable full] (hbase : t.capacity ≤ base ∨ base < 1) (hlt : base < 2 ^ 31)
    {k dst : ℕ}
    (hfull : 1 ≤ base → ((t.blocks.length + k : ℕ) : ℤ) ≤ base + base)
    (hnot : ¬ full → ((t.blocks.length + k : ℕ) : ℤ) ≤ t.capacity)
    (hdst : dst = pre.length + 1 + k)
    (hfg : ∀ a' t' stale junk, Represents a' t' → t'.blocks = t.blocks → stale.length = k →
      t'.room = t.blocks.length + k + junk.length →
      ((t.blocks.length + k : ℕ) : ℤ) ≤ t'.capacity →
      Rel S (f a' (pre ++ b :: (stale ++ post ++ junk))) (g t')) :
    Rel S
      (do
        let a ← (if full then a.grow heap base else pure a)
        let blocks ← memmove a.blocks dst (pre.length + 1) (a.size - pre.length - 1)
        f a blocks)
      (t.reserve heap full base k >>= g) := by
  have hgrow : Rel
      (fun a' t' => Represents a' t' ∧ t'.blocks = t.blocks ∧
        ((t.blocks.length + k : ℕ) : ℤ) ≤ t'.capacity)
      (if full then a.grow heap base else pure a) (if full then t.grow heap base else pure t) := by
    split_ifs with hf
    · refine (grow_refines h hbase hlt).mono fun a' t' h' => ?_
      obtain ⟨hrep, hblocks, hpos, hcap⟩ := h'
      exact ⟨hrep, hblocks, hcap ▸ hfull hpos⟩
    · exact .ok ⟨h, rfl, hnot hf⟩
  unfold BlockTable.reserve
  rw [bind_assoc]
  refine hgrow.bind fun a' t' h' => ?_
  obtain ⟨hrep, hblocks, hcap⟩ := h'
  obtain ⟨junk, hjunk, hroom⟩ := hrep.blocks
  have hsize : a'.size - pre.length - 1 = post.length := by
    rw [hrep.size, hblocks, hb]
    simp only [length_append, length_cons]
    omega
  rw [hsize, hjunk, hblocks, hb, hdst, memmove_gap]
  by_cases hk : k ≤ junk.length
  · rw [if_pos hk, if_pos (by rw [hroom, hblocks, hb]; omega)]
    refine hfg a' t' _ (junk.drop k) hrep hblocks ?_ ?_ hcap
    · simp only [length_take, length_append]
      omega
    · rw [hroom, hblocks, length_drop]
      omega
  · rw [if_neg hk, if_neg (by rw [hroom, hblocks, hb]; omega)]
    exact .error _

omit hb in
theorem Represents.update {a' : AddressSpaceAllocator}
    {new : List AddressBlock} (junk : List AddressBlock) (hcapacity : a'.capacity = a.capacity)
    (htotal : a'.totalBytes = a.totalBytes) (hblocks : a'.blocks = new ++ junk)
    (hlen : a'.size = new.length ∧ t.room = new.length + junk.length ∧ 1 ≤ new.length ∧
      (new.length : ℤ) ≤ t.capacity) :
    Represents a' { t with blocks := new } :=
  ⟨⟨junk, hblocks, hlen.2.1⟩, hlen.1, hcapacity.trans h.capacity, htotal.trans h.totalBytes,
    hlen.2.2.1, hlen.2.2.2, h.capacity_lt⟩

theorem Represents.readAt : readAt a.blocks pre.length = .ok b := by
  obtain ⟨junk, hjunk, _⟩ := h.blocks
  rw [hjunk, hb, append_assoc, cons_append, readAt_append_cons]

theorem Represents.length_eq : a.size = pre.length + 1 + post.length := by
  rw [h.size, hb]
  simp only [length_append, length_cons]
  omega

theorem Represents.checks {γ : Type} (f : AddressBlock → Checked γ) : (do
      check (1 ≤ a.capacity)
      check (1 ≤ a.size)
      check ((a.size : ℤ) ≤ a.capacity)
      check (pre.length < a.size)
      let old ← CS.readAt a.blocks pre.length
      f old) = f b := by
  have hlen := h.length_eq hb
  have hcap : (a.size : ℤ) ≤ a.capacity := by
    rw [h.capacity, h.size]
    exact h.size_le
  rw [check_of (show 1 ≤ a.capacity by omega), check_of (show 1 ≤ a.size by omega), check_of hcap,
    check_of (show pre.length < a.size by omega), h.readAt hb]
  rfl

end

end

/-! ### Splitting and taking a block -/

theorem splitBlock_refines (h : Represents a t) (hb : t.blocks = pre ++ b :: post)
    (hsize : size < b.size) : Rel
      (fun p t' => t'.blocks = t.blocks ∧ p.2 = pre.length + 1 ∧ Represents p.1 { t' with
          blocks := pre ++ b.withSize (b.size - size) ::
            .ofFields (b.offset + (b.size - size)) size true :: post })
      (a.splitBlock heap pre.length size)
      (t.reserve heap ((t.blocks.length : ℤ) = t.capacity) t.capacity 1) := by
  have hlen := h.length_eq hb
  have hle := h.size_le
  rw [h.size] at hlen
  unfold splitBlock
  rw [h.checks hb, check_of hsize, h.capacity, h.size]
  rw [← bind_pure (t.reserve heap _ _ _)]
  refine reserve_refines h hb (.inl le_rfl) h.capacity_lt (fun _ => by omega)
    (fun hnot => by omega) rfl fun a' t' stale junk hrep hblocks hstale hroom hcap => ?_
  obtain ⟨x, rfl⟩ := length_eq_one_iff.mp hstale
  have hsub : subNat 64 b.size size = b.size - size :=
    subNat_of_le hsize.le (by have := b.size_lt; omega)
  simp only [cons_append, nil_append, readAt_append_cons,
    ok_bind, writeAt_append_cons, writeAt_append_cons_one, hsub, pure_eq_ok]
  have hsize' : a'.size = t.blocks.length := by rw [hrep.size, hblocks]
  refine .ok ⟨hblocks, rfl, hrep.update junk rfl rfl (by simp) ?_⟩
  simp only [length_append, length_cons]
  omega

theorem take_refines (h : Represents a t) (hb : t.blocks = pre ++ b :: post) {i : ℕ}
    (hi : i = pre.length) (hsize : b.size = size) : ∃ a', a.take i size = .ok (a', b.offset) ∧
      Represents a' { t with blocks := pre ++ b.withAvailable false :: post } := by
  subst hi
  obtain ⟨junk, hjunk, hroom⟩ := h.blocks
  have hlen := h.length_eq hb
  have hlen' := h.size
  have hcap := h.size_le
  unfold AddressSpaceAllocator.take
  rw [h.readAt hb, ok_bind, check_of hsize, ok_bind, hjunk, hb, append_assoc,
    cons_append, writeAt_append_cons]
  refine ⟨_, rfl, h.update junk rfl rfl (by simp) ?_⟩
  simp only [length_append, length_cons]
  omega

/-! ### Splitting at an offset -/

theorem wrapInt_add_extra (hlo : 1 ≤ c) (hhi : c < 2 ^ 31) {extra : ℕ} (hextra : extra ≤ 1) :
    wrapInt (c + extra) = c + extra ∨ wrapInt (c + extra) < 1 := by
  by_cases hsmall : c + extra < 2 ^ 31
  · exact .inl (wrapInt_of_bounds (by omega) hsmall)
  · refine .inr ?_
    have hmax : c + extra = 2 ^ 31 := by omega
    rw [hmax]
    decide

theorem splitBlockAtOffsetWith_head
    {recur : AddressSpaceAllocator → ℕ → ℕ → ℕ → Checked (AddressSpaceAllocator × ℕ)}
    (h : Represents a t) (hb : t.blocks = pre ++ b :: post) (hlt : size < b.size) :
    splitBlockAtOffsetWith recur heap a pre.length size b.offset = do
      let p ← recur a pre.length (b.size - size) (wrapNat 64 (b.offset + size))
      return (p.1, pre.length) := by
  have hsub : subNat 64 b.size size = b.size - size :=
    subNat_of_le hlt.le (by have := b.size_lt; omega)
  unfold splitBlockAtOffsetWith
  rw [h.checks hb]
  simp only [ok_bind, check_of hlt, check_of le_rfl, if_true, if_pos hlt, hsub]

/-- The blocks that replace a block split after its first byte. -/
def middlePieces (b : AddressBlock) (size offset : ℕ) : List AddressBlock :=
  if b.size - size = offset - b.offset then
    [b.withSize (offset - b.offset), .ofFields offset size true]
  else
    [b.withSize (offset - b.offset), .ofFields offset size true,
      .ofFields (offset + size) (subNat 64 (b.size - size) (offset - b.offset)) true]

/-- The extra entries a split after the first byte needs. -/
def middleExtra (b : AddressBlock) (size offset : ℕ) : ℕ :=
  if b.size - size = offset - b.offset then 0 else 1

theorem splitMiddle_refines (heap : Heap)
    (recur : AddressSpaceAllocator → ℕ → ℕ → ℕ → Checked (AddressSpaceAllocator × ℕ))
    (size offset : ℕ) (h : Represents a t) (hb : t.blocks = pre ++ b :: post)
    (hsize : size < b.size)
    (hlo : b.offset < offset) (hhi : offset < b.offset + b.size) (hoff : offset < 2 ^ 64) :
    Rel
      (fun p t' => t'.blocks = t.blocks ∧ p.2 = pre.length + 1 ∧
        Represents p.1 { t' with blocks := pre ++ (middlePieces b size offset ++ post) })
      (splitBlockAtOffsetWith recur heap a pre.length size offset)
      (t.reserve heap (t.capacity ≤ ((t.blocks.length + middleExtra b size offset : ℕ) : ℤ))
        (wrapInt (t.capacity + middleExtra b size offset)) (1 + middleExtra b size offset)) := by
  have hlen := h.length_eq hb
  have hle := h.size_le
  have hlt := b.size_lt
  rw [h.size] at hlen
  have hsub : subNat 64 b.size size = b.size - size := subNat_of_le hsize.le (by omega)
  have hdiff : subNat 64 offset b.offset = offset - b.offset := subNat_of_le hlo.le hoff
  have hneed : subNat 64 (b.size - size) (offset - b.offset) = 0 ↔
      b.size - size = offset - b.offset := by
    rcases le_or_gt (offset - b.offset) (b.size - size) with hcmp | hcmp
    · rw [subNat_of_le hcmp (by omega)]
      omega
    · rw [subNat_of_lt hcmp (by omega)]
      omega
  unfold splitBlockAtOffsetWith
  rw [h.checks hb, h.capacity, h.size]
  simp only [ok_bind, check_of hsize, check_of hlo.le, if_neg hlo.ne', hsub, hdiff]
  rw [← bind_pure (t.reserve heap _ _ _)]
  have hbase (extra : ℕ) (hextra : extra ≤ 1) :=
    wrapInt_add_extra (show 1 ≤ t.capacity by omega) h.capacity_lt hextra
  have hborrow : wrapNat 63 (offset - b.offset) = offset - b.offset := wrapNat_of_lt (by omega)
  by_cases hex : b.size - size = offset - b.offset
  · simp only [middleExtra, middlePieces, if_pos hex, hneed.mpr hex, ne_eq, not_true, decide_false,
      Bool.false_eq_true, if_false]
    have hb0 := hbase 0 (by omega)
    refine reserve_refines h hb (by omega) (wrapInt_lt _) (fun _ => by omega)
      (fun hnot => by omega) rfl
      fun a' t' stale junk hrep hblocks hstale hroom hcap => ?_
    obtain ⟨x, rfl⟩ := length_eq_one_iff.mp hstale
    have hsize' : a'.size = t.blocks.length := by rw [hrep.size, hblocks]
    simp only [cons_append, nil_append, readAt_append_cons, ok_bind,
      writeAt_append_cons, writeAt_append_cons_one, hdiff, pure_eq_ok]
    refine .ok ⟨hblocks, rfl, hrep.update junk rfl rfl (by simp) ?_⟩
    simp only [length_append, length_cons]
    omega
  · simp only [middleExtra, middlePieces, if_neg hex, mt hneed.mp hex, ne_eq, not_false_iff,
      decide_true, if_true]
    have hb1 := hbase 1 le_rfl
    refine reserve_refines h hb (by omega) (wrapInt_lt _) (fun _ => by omega)
      (fun hnot => by omega) rfl
      fun a' t' stale junk hrep hblocks hstale hroom hcap => ?_
    obtain ⟨x, y, rfl⟩ := length_eq_two.mp hstale
    have hsize' : a'.size = t.blocks.length := by rw [hrep.size, hblocks]
    simp only [cons_append, nil_append, readAt_append_cons, ok_bind,
      writeAt_append_cons, writeAt_append_cons_one, writeAt_append_cons_two, hdiff, hsub,
      withSize_size, hborrow, pure_eq_ok]
    refine .ok ⟨hblocks, rfl, hrep.update junk rfl rfl (by simp) ?_⟩
    simp only [length_append, length_cons]
    omega

/-! ### Allocating -/

theorem allocate_refines (heap : Heap) (size : ℕ) (h : Represents a t) :
    Rel (fun p q => Represents p.1 q.1 ∧ p.2 = q.2)
      (a.allocate heap size) (t.allocate heap size) := by
  obtain ⟨junk, hjunk, hroom⟩ := h.blocks
  unfold allocate BlockTable.allocate findAvailableBlock
  rw [hjunk, h.size, check_of h.size_pos, ok_bind, findAvailableLoop_eq, bind_assoc]
  refine Rel.check _ fun hpos => ?_
  rw [← bestFit, ok_bind]
  cases hfit : bestFit size t.blocks with
  | none => exact .ok ⟨h, rfl⟩
  | some i =>
    obtain ⟨pre, b, post, hb, rfl, hav, hle⟩ := bestFit_eq_some hfit
    have hlen := h.length_eq hb
    rw [h.size] at hlen
    have hread := h.readAt hb
    rw [hjunk] at hread
    simp only [check_of (show pre.length < t.blocks.length by omega), ok_bind, hread, check_of hle]
    have hread' : readAt t.blocks pre.length = .ok b := by rw [hb, readAt_append_cons]
    rw [hread', ok_bind]
    by_cases hlt : size < b.size
    · rw [if_pos hlt, if_pos hlt]
      refine (splitBlock_refines h hb hlt).bind fun p t' h' => ?_
      obtain ⟨hblocks, hi, hrep⟩ := h'
      have hsz : (ofFields (b.offset + (b.size - size)) size true).size = size :=
        wrapNat_of_lt (by have := b.size_lt; omega)
      obtain ⟨a', htake, hrep'⟩ := take_refines hrep
        (append_cons pre (b.withSize (b.size - size)) _) (by simpa using hi) hsz
      rw [htake]
      refine .ok ⟨?_, rfl⟩
      simpa [hblocks, hb, cutTail, ofFields, withAvailable] using hrep'
    · rw [if_neg hlt, if_neg hlt]
      obtain ⟨a', htake, hrep'⟩ := take_refines h hb rfl (show b.size = size by omega)
      rw [pure_eq_ok, ok_bind, htake]
      refine .ok ⟨?_, rfl⟩
      simpa [hb] using hrep'

/-- A successful search for an offset finds a block that contains it and does not
wrap around. -/
theorem matchesOffset_iff : matchesOffset size offset b = true ↔
      size ≤ b.size ∧ b.available = true ∧ b.offset ≤ offset ∧ offset < b.offset + b.size ∧
        b.offset + b.size < 2 ^ 64 := by
  have hsize := b.size_lt
  simp only [matchesOffset, decide_eq_true_eq]
  refine and_congr_right fun _ => and_congr_right fun _ => and_congr_right fun _ => ?_
  unfold wrapNat
  omega

theorem splitBlockAtOffset_refines (h : Represents a t) (hb : t.blocks = pre ++ b :: post)
    (hlt : size < b.size) (hm : matchesOffset size offset b) {pieces : List AddressBlock}
    (hcut : cutAt b size offset = .ok pieces) : Rel
      (fun p t' => t'.blocks = t.blocks ∧ ∃ left x right, p.2 = left.length ∧ x.size = size ∧
        Represents p.1 { t' with blocks := left ++ x :: right } ∧
        left ++ x.withAvailable false :: right = pre ++ pieces ++ post)
      (splitBlockAtOffset heap a pre.length size offset)
      (t.reserve heap (t.capacity ≤ ((t.blocks.length + (pieces.length - 2) : ℕ) : ℤ))
        (wrapInt (t.capacity + (pieces.length - 2 : ℕ))) (1 + (pieces.length - 2))) := by
  obtain ⟨hle, hav, hlo, hhi, hwrap⟩ := matchesOffset_iff.mp hm
  have hbsize := b.size_lt
  by_cases hhead : offset = b.offset
  · -- the tail is split off by the recursive call, a split in the middle
    subst hhead
    simp only [cutAt, if_true] at hcut
    obtain ⟨_, hpos, hcut⟩ := bind_eq_ok.mp hcut
    obtain rfl := ok.inj hcut
    replace hpos := check_eq_ok.mp hpos
    have hmid := splitMiddle_refines heap (fun _ _ _ _ => .error .assertion) (b.size - size)
      (b.offset + size) h hb (by omega) (by omega) (by omega) (by omega)
    have hextra : middleExtra b (b.size - size) (b.offset + size) = 0 := if_pos (by omega)
    have hpieces : middlePieces b (b.size - size) (b.offset + size) =
        [b.withSize size, .ofFields (b.offset + size) (b.size - size) true] := by
      rw [middlePieces, if_pos (by omega), Nat.add_sub_cancel_left]
    rw [hextra, hpieces] at hmid
    rw [splitBlockAtOffset, splitBlockAtOffsetWith_head h hb hlt,
      wrapNat_of_lt (show b.offset + size < 2 ^ 64 by omega), ← bind_pure (t.reserve heap _ _ _)]
    refine hmid.bind fun p t' h' => .ok ?_
    obtain ⟨hblocks, _, hrep⟩ := h'
    refine ⟨hblocks, pre, b.withSize size, _, rfl, wrapNat_of_lt (by omega), hrep, by simp⟩
  · have hmid := splitMiddle_refines heap
      (splitBlockAtOffsetWith (fun _ _ _ _ => .error .assertion) heap) size offset h hb hlt
      (lt_of_le_of_ne hlo (Ne.symm hhead)) hhi (by omega)
    have hextra : pieces.length - 2 = middleExtra b size offset := by
      simp only [cutAt, if_neg hhead] at hcut
      unfold middleExtra
      split_ifs at hcut ⊢ with hex
      all_goals
        obtain rfl := ok.inj hcut
        rfl
    rw [hextra]
    refine hmid.mono fun p t' h' => ?_
    obtain ⟨hblocks, hi, hrep⟩ := h'
    simp only [cutAt, if_neg hhead] at hcut
    unfold middlePieces at hrep
    split_ifs at hcut hrep with hex
    all_goals
      obtain rfl := ok.inj hcut
      refine ⟨hblocks, pre ++ [b.withSize (offset - b.offset)], .ofFields offset size true, _,
        by simpa using hi, wrapNat_of_lt (by omega), by simpa using hrep, ?_⟩
      simp [ofFields, withAvailable]

theorem splitBlockAtOffset_of_cutAt_error (h : Represents a t) (hb : t.blocks = pre ++ b :: post)
    (hlt : size < b.size) {f : Fault} (hcut : cutAt b size offset = .error f) :
    splitBlockAtOffset heap a pre.length size offset = .error f := by
  have hboff := b.offset_lt
  by_cases hhead : offset = b.offset
  · subst hhead
    simp only [cutAt, if_true] at hcut
    by_cases hpos : 0 < size
    · rw [check_of hpos] at hcut
      simp at hcut
    rw [check_of_not hpos] at hcut
    obtain rfl := error.inj hcut
    obtain rfl : size = 0 := by omega
    rw [splitBlockAtOffset, splitBlockAtOffsetWith_head h hb hlt, Nat.add_zero,
      wrapNat_of_lt hboff, splitBlockAtOffsetWith, h.checks hb, check_of_not (by omega)]
    rfl
  · simp only [cutAt, if_neg hhead] at hcut
    split_ifs at hcut

theorem allocateFixed_refines (heap : Heap) (size offset : ℕ) (h : Represents a t) :
    Rel (fun p q => Represents p.1 q.1 ∧ p.2 = q.2)
      (a.allocateFixed heap size offset) (t.allocateFixed heap size offset) := by
  obtain ⟨junk, hjunk, hroom⟩ := h.blocks
  have hpos := h.size_pos
  unfold allocateFixed BlockTable.allocateFixed findAvailableBlockAtOffset
  rw [hjunk, h.size, if_neg (show ¬ t.blocks.length = 0 by omega), findAvailableAtOffsetLoop_eq,
    ok_bind]
  cases hfit : fitAtOffset size offset t.blocks with
  | none => exact .ok ⟨h, rfl⟩
  | some i =>
    obtain ⟨pre, b, post, hb, rfl, hm⟩ := fitAtOffset_eq_some hfit
    have hle := (matchesOffset_iff.mp hm).1
    have hlen := h.length_eq hb
    rw [h.size] at hlen
    have hread := h.readAt hb
    rw [hjunk] at hread
    simp only [Option.map_some, Nat.zero_add,
      check_of (show pre.length < t.blocks.length by omega), ok_bind, hread, check_of hle]
    have hread' : readAt t.blocks pre.length = .ok b := by rw [hb, readAt_append_cons]
    rw [hread', ok_bind]
    by_cases hlt : size < b.size
    · rw [if_pos hlt, if_pos hlt]
      cases hcut : cutAt b size offset with
      | error f =>
        rw [splitBlockAtOffset_of_cutAt_error h hb hlt hcut]
        exact .error f
      | ok pieces =>
        refine (splitBlockAtOffset_refines h hb hlt hm hcut).bind fun p t' h' => ?_
        obtain ⟨hblocks, left, x, right, hi, hx, hrep, heq⟩ := h'
        obtain ⟨a', htake, hrep'⟩ := take_refines hrep rfl hi hx
        simp only [htake, ok_bind, pure_eq_ok]
        refine .ok ⟨?_, rfl⟩
        simpa [hblocks, hb, heq] using hrep'
    · rw [if_neg hlt, if_neg hlt]
      obtain ⟨a', htake, hrep'⟩ := take_refines h hb rfl (show b.size = size by omega)
      simp only [pure_eq_ok, ok_bind, htake]
      refine .ok ⟨?_, rfl⟩
      simpa [hb] using hrep'

/-! ### Releasing -/

theorem availableAt_before (pre rest : List AddressBlock) :
    availableAt (pre ++ rest) (pre.length - 1) (decide (0 < pre.length)) =
      .ok (pre.getLast?.any (·.available)) := by
  rcases eq_nil_or_concat' pre with rfl | ⟨pre', p, rfl⟩
  · simp [availableAt]
  · simp [availableAt]

theorem availableAt_after (pre : List AddressBlock) (b : AddressBlock)
    (post junk : List AddressBlock) : availableAt (pre ++ b :: (post ++ junk)) (pre.length + 1)
      (decide (pre.length + 1 < pre.length + 1 + post.length)) =
      .ok (post.head?.any (·.available)) := by
  cases post with
  | nil => simp [availableAt]
  | cons n post => simp [availableAt]

theorem releaseBlock_refines (h : Represents a t) (hb : t.blocks = pre ++ b :: post) :
    ∃ a', a.releaseBlock pre.length = .ok a' ∧
      Represents a' { t with blocks := released pre b post } := by
  obtain ⟨junk, hjunk, hroom⟩ := h.blocks
  have hlen := h.length_eq hb
  have hcap := h.size_le
  have hsize := h.size
  rw [hb, append_assoc, cons_append] at hjunk
  unfold releaseBlock
  rw [check_of (show pre.length < a.size by omega), ok_bind, h.readAt hb, ok_bind, hjunk,
    writeAt_append_cons, ok_bind, availableAt_before, ok_bind, hlen, availableAt_after, ok_bind]
  have hroom' : t.room = pre.length + 1 + post.length + junk.length := by omega
  rcases end_available_cases pre with hp | ⟨pre, p, rfl, hp⟩
  · have hbefore : pre.getLast?.any (·.available) = false := by
      simpa [Option.any_eq_false, NotEndAvailable] using hp
    rcases start_available_cases post with hn | ⟨n, post, rfl, hn⟩
    · have hafter : post.head?.any (·.available) = false := by
        simpa [Option.any_eq_false, NotStartAvailable] using hn
      simp only [hbefore, hafter, released_neither hp hn]
      refine ⟨_, rfl, h.update junk rfl rfl (by simp) ?_⟩
      simp only [length_append, length_cons]
      omega
    · obtain ⟨rest, hrest, hmove⟩ := memmove_close_one pre
        ((b.withAvailable true).withSize (b.size + n.size)) n post junk
      simp only [length_cons] at hroom'
      have hcount : pre.length + 1 + (post.length + 1) - 1 - (pre.length + 1) = post.length := by
        omega
      simp only [hbefore, head?_cons, Option.any_some, hn, released_after hp hn,
        cons_append, readAt_append_cons, readAt_append_cons_one, ok_bind,
        writeAt_append_cons, withAvailable_size, length_cons, hcount, hmove]
      refine ⟨_, rfl, h.update rest rfl rfl (by simp) ?_⟩
      simp only [length_append, length_cons]
      omega
  · have hindex : (pre ++ [p]).length = pre.length + 1 := by simp
    have hbefore : (pre ++ [p]).getLast?.any (·.available) = true := by simpa using hp
    simp only [hindex, Nat.add_sub_cancel, append_assoc, cons_append, nil_append,
      hbefore] at hroom' ⊢
    rcases start_available_cases post with hn | ⟨n, post, rfl, hn⟩
    · have hafter : post.head?.any (·.available) = false := by
        simpa [Option.any_eq_false, NotStartAvailable] using hn
      obtain ⟨rest, hrest, hmove⟩ := memmove_close_one pre (p.withSize (p.size + b.size))
        (b.withAvailable true) post junk
      have hcount : pre.length + 1 + 1 + post.length - 1 - (pre.length + 1) = post.length := by
        omega
      simp only [hafter, released_before hp hn, readAt_append_cons, readAt_append_cons_one,
        ok_bind, writeAt_append_cons, withAvailable_size, hcount, hmove]
      refine ⟨_, rfl, h.update rest rfl rfl (by simp) ?_⟩
      simp only [length_append, length_cons]
      omega
    · obtain ⟨rest, hrest, hmove⟩ := memmove_close_two pre
        (p.withSize (p.size + (b.size + n.size))) (b.withAvailable true) n post junk
      simp only [length_cons] at hroom'
      have hcount : pre.length + 1 + 1 + (post.length + 1) - 2 - (pre.length + 1) =
          post.length := by omega
      simp only [head?_cons, Option.any_some, hn, released_both hp hn, cons_append,
        readAt_append_cons, readAt_append_cons_one, readAt_append_cons_two, ok_bind,
        writeAt_append_cons, withAvailable_size, length_cons, hcount, hmove]
      refine ⟨_, rfl, h.update rest rfl rfl (by simp) ?_⟩
      simp only [length_append, length_cons]
      omega

theorem deallocateLoop_eq (a : AddressSpaceAllocator) (offset : ℕ)
    (bs junk : List AddressBlock) (i : ℕ) :
    deallocateLoop a offset (bs ++ junk) bs.length i = match bs.findIdx? (·.offset = offset) with
      | none => .ok (a, EINVAL)
      | some j => do
        let b ← readAt bs j
        if b.available then .ok (a, EINVAL)
        else do
          let a ← a.releaseBlock (i + j)
          return (a, 0) := by
  induction bs generalizing i with
  | nil => simp [deallocateLoop]
  | cons b bs ih =>
    simp only [cons_append, length_cons, deallocateLoop, findIdx?_cons]
    by_cases hoff : b.offset = offset
    · simp [hoff, readAt]
    simp only [hoff, if_false, ih, decide_false, Bool.false_eq_true]
    cases bs.findIdx? (·.offset = offset) with
    | none => rfl
    | some j =>
      simp only [Option.map_some, readAt, getElem?_cons_succ, Nat.add_right_comm i 1 j,
        Nat.add_assoc]

theorem deallocate_refines (offset : ℕ) (h : Represents a t) :
    Rel (fun p q => Represents p.1 q.1 ∧ p.2 = q.2)
      (a.deallocate offset) (t.deallocate offset) := by
  obtain ⟨junk, hjunk, _⟩ := h.blocks
  unfold deallocate BlockTable.deallocate
  rw [h.size, check_of h.size_pos, hjunk, deallocateLoop_eq]
  cases hfind : t.blocks.findIdx? (·.offset = offset) with
  | none => exact .ok ⟨h, rfl⟩
  | some i =>
    obtain ⟨hlt, _⟩ := findIdx?_eq_some_iff_getElem.mp hfind
    have hb : t.blocks = t.blocks.take i ++ t.blocks[i] :: t.blocks.drop (i + 1) := by
      rw [← drop_eq_getElem_cons hlt, take_append_drop]
    have hlen : (t.blocks.take i).length = i := by
      rw [length_take]
      omega
    simp only [readAt_of_getElem? (getElem?_eq_getElem hlt), ok_bind, Nat.zero_add]
    split_ifs
    · exact .ok ⟨h, rfl⟩
    · obtain ⟨a', hrelease, hrep⟩ := releaseBlock_refines h hb
      rw [hlen] at hrelease
      rw [hrelease]
      exact .ok ⟨hrep, rfl⟩

/-! ### Resetting and initialising -/

theorem reset_refines (h : Represents a t) : ∃ a', a.reset = .ok a' ∧ Represents a' t.reset := by
  obtain ⟨junk, hjunk, hroom⟩ := h.blocks
  have hpos := h.size_pos
  have hle := h.size_le
  obtain ⟨b, bs, hb⟩ := exists_cons_of_length_pos hpos
  unfold reset BlockTable.reset
  rw [h.size, hjunk, hb, h.totalBytes]
  refine ⟨_, rfl, h.update (bs ++ junk) rfl h.totalBytes.symm (by simp) ?_⟩
  simp only [hroom, hb, length_cons, length_append, length_nil, true_and]
  omega

theorem call_refines (h : Represents a t) (op : Op) :
    Rel (fun p q => Represents p.1 q.1 ∧ p.2 = q.2) (a.call op) (t.call op) := by
  cases op with
  | allocate heap size =>
    refine (allocate_refines heap size h).bind fun p q hpq => .ok ⟨hpq.1, ?_⟩
    rw [hpq.2]
  | allocateFixed heap size offset => exact allocateFixed_refines heap size offset h
  | deallocate offset =>
    refine (deallocate_refines offset h).bind fun p q hpq => .ok ⟨hpq.1, ?_⟩
    rw [hpq.2]
  | reset =>
    obtain ⟨a', ha, hrep⟩ := reset_refines h
    unfold call BlockTable.call
    simp only [ha, ok_bind, pure_eq_ok]
    exact .ok ⟨hrep, rfl⟩

def BlockTable.init (size : ℕ) (capacity : ℤ) : BlockTable where
  blocks := [.ofFields 0 size true]
  room := capacity.toNat
  capacity := capacity
  totalBytes := wrapNat 64 size

theorem init_refines (hcap : capacity < 2 ^ 31) (h : init heap size capacity = .ok a) :
    1 ≤ capacity ∧ Represents a (.init size capacity) := by
  unfold init reallocBlocks at h
  obtain ⟨_, hpos, h⟩ := bind_eq_ok.mp h
  replace hpos := check_eq_ok.mp hpos
  obtain ⟨blocks, hblocks, h⟩ := bind_eq_ok.mp h
  split_ifs at hblocks
  obtain rfl := ok.inj hblocks
  obtain ⟨n, hn⟩ : ∃ n, capacity.toNat = n + 1 := ⟨capacity.toNat - 1, by omega⟩
  simp only [hn, take_nil, nil_append, length_nil, Nat.sub_zero, replicate_succ] at h
  obtain ⟨blocks, hblocks, h⟩ := bind_eq_ok.mp h
  have hwrite := writeAt_append_cons [] (ofFields 0 0 false) (.ofFields 0 size true)
    (List.replicate n (.ofFields 0 0 false))
  obtain rfl := ok.inj hblocks
  obtain rfl := ok.inj h
  refine ⟨hpos, ⟨List.replicate n (.ofFields 0 0 false), rfl, ?_⟩, rfl, rfl, rfl, le_rfl, ?_, hcap⟩
  · simp only [BlockTable.init, length_cons, length_nil, length_replicate]
    omega
  · simp only [BlockTable.init, length_cons, length_nil]
    omega

theorem init_ensures (heap : Heap) (size : ℕ) (hpos : 1 ≤ capacity) :
    (init heap size capacity).Ensures (fun _ => True)
      (· = .outOfMemory) := by
  unfold init reallocBlocks
  rw [check_of hpos, ok_bind]
  split_ifs
  · rw [ok_bind, writeAt_of_lt (by simp; omega)]
    trivial
  · rfl

end AndroidEmu.AddressSpace
