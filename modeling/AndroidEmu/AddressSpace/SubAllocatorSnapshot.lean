import AndroidEmu.AddressSpace.SubAllocator

/-!
# Snapshots of the sub-allocator

Loading a saved sub-allocator restores it exactly when its array still has the 32 entries it started
with: with more blocks it writes past the array at once, and with a larger `capacity` a later call
does. The calls that made the array grow, after `freeAll`, are such calls.
-/

namespace AndroidEmu.AddressSpace

open CS AddressSpaceAllocator Checked List Heap Except

/-! ### What growing depends on -/

namespace BlockTable

variable {heap : Heap} {t t' u : BlockTable} {full : Prop} [Decidable full] {base : ℤ} {k : ℕ}

theorem reserve_ok (hbase : t.capacity ≤ base ∨ base < 1) (hlt : base < 2 ^ 31)
    (h : t.reserve heap full base k = .ok t') :
    t'.blocks = t.blocks ∧ t'.totalBytes = t.totalBytes ∧
      ((¬ full ∧ t'.room = t.room ∧ t'.capacity = t.capacity) ∨
        (full ∧ t.capacity + t.capacity ≤ t'.capacity ∧ (t'.room : ℤ) = t'.capacity)) := by
  obtain ⟨t'', hgrow, h⟩ := bind_eq_ok.mp h
  split_ifs at h
  obtain rfl := ok.inj h
  split_ifs at hgrow with hfull
  · obtain ⟨c, hc, hgrow⟩ := bind_eq_ok.mp hgrow
    obtain ⟨_, hpos, hc⟩ := bind_eq_ok.mp hc
    replace hpos := check_eq_ok.mp hpos
    obtain rfl := ok.inj hc
    split_ifs at hgrow with hgrant
    have hnonneg := nonneg_of_grants hgrant (neg_le_wrapInt _)
    have hdouble := wrapInt_double hpos hlt hnonneg
    obtain rfl := ok.inj hgrow
    exact ⟨rfl, rfl, .inr ⟨hfull, by simp only; omega, by simp only; omega⟩⟩
  · obtain rfl := ok.inj hgrow
    exact ⟨rfl, rfl, .inl ⟨hfull, rfl, rfl⟩⟩

theorem reserve_of_not (hfull : ¬ full) : t.reserve heap full base k =
      if t.blocks.length + k ≤ t.room then .ok t else .error .outOfBounds := by
  unfold reserve
  rw [if_neg hfull]
  rfl

theorem reserve_congr {full' : Prop} [Decidable full'] (h : full ↔ full') :
    t.reserve heap full base k = t.reserve heap full' base k := by
  simp only [h]

theorem reserve_blocks (h : t.reserve heap full base k = .ok t') : t'.blocks = t.blocks := by
  obtain ⟨t'', hgrow, h⟩ := bind_eq_ok.mp h
  split_ifs at h
  obtain rfl := ok.inj h
  split_ifs at hgrow
  · obtain ⟨c, -, hgrow⟩ := bind_eq_ok.mp hgrow
    split_ifs at hgrow
    obtain rfl := ok.inj hgrow
    rfl
  · obtain rfl := ok.inj hgrow
    rfl

end BlockTable

/-- What a call does to the blocks, whatever the size of the array: new blocks that
need no entry, or new blocks that need one entry and `extra` more. -/
inductive Plan
  | keep (blocks : List AddressBlock) (r : ℤ)
  | extend (heap : Heap) (extra : ℕ) (blocks : List AddressBlock) (r : ℤ)

def plan (blocks : List AddressBlock) (totalBytes : ℕ) : Op → Checked Plan
  | .allocate heap size => do
    check (∀ b ∈ blocks, 0 < b.size)
    match bestFit size blocks with
    | none => return .keep blocks badOffset
    | some i =>
      let b ← readAt blocks i
      if size < b.size then
        return .extend heap 0 (splice blocks i (cutTail b size))
          (wrapNat 64 (b.offset + (b.size - size)))
      else return .keep (splice blocks i [b.withAvailable false]) b.offset
  | .allocateFixed heap size offset => do
    match fitAtOffset size offset blocks with
    | none => return .keep blocks (-1)
    | some i =>
      let b ← readAt blocks i
      if size < b.size then
        let pieces ← cutAt b size offset
        return .extend heap (pieces.length - 2) (splice blocks i pieces) 0
      else return .keep (splice blocks i [b.withAvailable false]) 0
  | .deallocate offset => do
    match blocks.findIdx? (·.offset = offset) with
    | none => return .keep blocks EINVAL
    | some i =>
      let b ← readAt blocks i
      if b.available then return .keep blocks EINVAL
      else return .keep (released (blocks.take i) b (blocks.drop (i + 1))) 0
  | .reset => return .keep [.ofFields 0 totalBytes true] 0

def Plan.carryOut (t : BlockTable) : Plan → Checked (BlockTable × ℤ)
  | .keep blocks r => .ok ({ t with blocks }, r)
  | .extend heap extra blocks r => do
    let t ← t.reserve heap (t.capacity ≤ ((t.blocks.length + extra : ℕ) : ℤ))
      (wrapInt (t.capacity + extra)) (1 + extra)
    return ({ t with blocks }, r)

variable {t u t' : BlockTable}

theorem BlockTable.call_eq_plan (hle : (t.blocks.length : ℤ) ≤ t.capacity)
    (hlt : t.capacity < 2 ^ 31) (op : Op) :
    t.call op = plan t.blocks t.totalBytes op >>= Plan.carryOut t := by
  cases op with
  | allocate heap size =>
    simp only [BlockTable.call, BlockTable.allocate, plan, bind_assoc]
    refine bind_congr fun _ _ => ?_
    cases hfit : bestFit size t.blocks with
    | none => rfl
    | some i =>
      simp only [bind_assoc]
      refine bind_congr fun b _ => ?_
      by_cases hcut : size < b.size
      · simp only [if_pos hcut, pure_eq_ok, ok_bind, Plan.carryOut, bind_assoc,
          Nat.cast_zero, add_zero, wrapInt_of_bounds (show -2 ^ 31 ≤ t.capacity by omega) hlt]
        rw [reserve_congr (show (t.blocks.length : ℤ) = t.capacity ↔
          t.capacity ≤ (t.blocks.length : ℤ) by omega)]
        refine bind_congr fun t' ht' => ?_
        rw [reserve_blocks ht']
      · simp only [if_neg hcut]
        rfl
  | allocateFixed heap size offset =>
    simp only [BlockTable.call, BlockTable.allocateFixed, plan]
    cases hfit : fitAtOffset size offset t.blocks with
    | none => rfl
    | some i =>
      simp only [bind_assoc]
      refine bind_congr fun b _ => ?_
      by_cases hcut : size < b.size
      · simp only [if_pos hcut, bind_assoc]
        refine bind_congr fun pieces _ => ?_
        refine bind_congr fun t' ht' => ?_
        rw [reserve_blocks ht']
      · simp only [if_neg hcut]
        rfl
  | deallocate offset =>
    simp only [BlockTable.call, BlockTable.deallocate, plan]
    cases hfind : t.blocks.findIdx? (·.offset = offset) with
    | none => rfl
    | some i =>
      simp only [bind_assoc]
      refine bind_congr fun b _ => ?_
      split_ifs
      · rfl
      · rfl
  | reset => rfl

variable {size offset totalBytes extra allocCount totalSize pageSize : ℕ}

variable {pieces blocks new : List AddressBlock}

theorem cutAt_length {b : AddressBlock}
    (h : cutAt b size offset = .ok pieces) : pieces.length - 2 ≤ 1 := by
  unfold cutAt at h
  split_ifs at h
  · obtain ⟨_, -, h⟩ := bind_eq_ok.mp h
    obtain rfl := ok.inj h
    simp
  · obtain rfl := ok.inj h
    simp
  · obtain rfl := ok.inj h
    simp

variable {heap : Heap} {r c : ℤ}

theorem plan_extra_le {op : Op} (h : plan blocks totalBytes op = .ok (.extend heap extra new r)) :
    extra ≤ 1 := by
  cases op with
  | allocate heap' size =>
    obtain ⟨_, -, h⟩ := bind_eq_ok.mp h
    cases hfit : bestFit size blocks with
    | none => simp [hfit] at h
    | some i =>
      simp only [hfit] at h
      obtain ⟨b, -, h⟩ := bind_eq_ok.mp h
      split_ifs at h
      · injection ok.inj h with _ hextra
        omega
      · simp at h
  | allocateFixed heap' size offset =>
    simp only [plan] at h
    cases hfit : fitAtOffset size offset blocks with
    | none => simp [hfit] at h
    | some i =>
      simp only [hfit] at h
      obtain ⟨b, -, h⟩ := bind_eq_ok.mp h
      split_ifs at h
      · obtain ⟨pieces, hpieces, h⟩ := bind_eq_ok.mp h
        injection ok.inj h with _ hextra
        exact hextra ▸ cutAt_length hpieces
      · simp at h
  | deallocate offset =>
    simp only [plan] at h
    cases hfind : blocks.findIdx? (·.offset = offset) with
    | none => simp [hfind] at h
    | some i =>
      simp only [hfind] at h
      obtain ⟨b, -, h⟩ := bind_eq_ok.mp h
      split_ifs at h
      · simp at h
      · simp at h
  | reset => simp [plan] at h

/-! ### The same call on arrays of different sizes -/

/-- Two tables with the same blocks: `t` has the initial array, `u` at least its entries, and claims
twice its capacity or more. -/
structure Outgrown (t u : BlockTable) : Prop where
  blocks : u.blocks = t.blocks
  totalBytes : u.totalBytes = t.totalBytes
  length_le : t.blocks.length ≤ 32
  capacity : t.capacity = 32
  room : t.room = 32
  capacity_ge : 64 ≤ u.capacity
  room_ge : 32 ≤ u.room
  capacity_lt : u.capacity < 2 ^ 31

/-- A plan that the initial array has room for has the same effect on the larger
one; a plan that makes the initial array grow runs past an array that has only the
initial entries, but fits one with as many as its capacity. -/
theorem Outgrown.carryOut {p : Plan} (h : Outgrown t u)
    (hextra : ∀ heap extra new s, p = .extend heap extra new s → extra ≤ 1)
    (ht : p.carryOut t = .ok (t', r)) :
    (t'.capacity = 32 ∧ t'.room = 32 ∧ t'.totalBytes = t.totalBytes ∧
        p.carryOut u = .ok ({ u with blocks := t'.blocks }, r)) ∨
      (t'.capacity ≠ 32 ∧ (u.room = 32 → p.carryOut u = .error .outOfBounds) ∧
        ((u.room : ℤ) = u.capacity → ∃ u', p.carryOut u = .ok (u', r))) := by
  obtain ⟨hblocks, htotal, hlen, hcap, hroom, hcap', hroom', hlt⟩ := h
  cases p with
  | keep new s =>
    obtain ⟨rfl, rfl⟩ := pair_inj ht
    exact .inl ⟨hcap, hroom, rfl, rfl⟩
  | extend heap extra new s =>
    have hle := hextra heap extra new s rfl
    obtain ⟨t'', hres, ht⟩ := bind_eq_ok.mp ht
    obtain ⟨rfl, rfl⟩ := pair_inj ht
    have hnot : ¬ u.capacity ≤ ((u.blocks.length + extra : ℕ) : ℤ) := by
      rw [hblocks]
      omega
    simp only [Plan.carryOut, BlockTable.reserve_of_not hnot]
    rw [hblocks]
    by_cases hfit : t.blocks.length + (1 + extra) ≤ 32
    · left
      have hnot' : ¬ t.capacity ≤ ((t.blocks.length + extra : ℕ) : ℤ) := by omega
      rw [BlockTable.reserve_of_not hnot', if_pos (by omega)] at hres
      obtain rfl := ok.inj hres
      refine ⟨hcap, hroom, rfl, ?_⟩
      rw [if_pos (by omega)]
      rfl
    · right
      have hbase : wrapInt (t.capacity + extra) = t.capacity + extra :=
        wrapInt_of_bounds (by omega) (by omega)
      obtain ⟨-, -, hgrown⟩ := BlockTable.reserve_ok (.inl (by omega)) (by omega) hres
      refine ⟨?_, fun h32 => ?_, fun hfull => ⟨{ u with blocks := new }, ?_⟩⟩
      · omega
      · rw [if_neg (by omega)]
        rfl
      · rw [if_pos (by omega)]
        rfl

theorem Outgrown.call {op : Op} (h : Outgrown t u) (ht : t.call op = .ok (t', r)) :
    (t'.capacity = 32 ∧ t'.room = 32 ∧ t'.totalBytes = t.totalBytes ∧
        u.call op = .ok ({ u with blocks := t'.blocks }, r)) ∨
      (t'.capacity ≠ 32 ∧ (u.room = 32 → u.call op = .error .outOfBounds) ∧
        ((u.room : ℤ) = u.capacity → ∃ u', u.call op = .ok (u', r))) := by
  have hlen := h.length_le
  have hcap := h.capacity
  have hcap' := h.capacity_ge
  rw [BlockTable.call_eq_plan (by omega) (by omega)] at ht
  obtain ⟨p, hp, ht⟩ := bind_eq_ok.mp ht
  have hu : u.call op = p.carryOut u := by
    rw [BlockTable.call_eq_plan (by rw [h.blocks]; omega) h.capacity_lt, h.blocks, h.totalBytes, hp]
    rfl
  rw [hu]
  exact h.carryOut (fun heap extra new s hs => plan_extra_le (hs ▸ hp)) ht

variable {a : AddressSpaceAllocator}

theorem Outgrown.after (h : Outgrown t u)
    (hrep : Represents a t') (hcap : t'.capacity = 32) (hroom : t'.room = 32)
    (htotal : t'.totalBytes = t.totalBytes) : Outgrown t' { u with blocks := t'.blocks } :=
  have := hrep.size_le
  { h with
    blocks := rfl
    totalBytes := h.totalBytes.trans htotal.symm
    length_le := by omega
    capacity := hcap
    room := hroom }

theorem BlockTable.call_room {op : Op} (hpos : 1 ≤ t.capacity)
    (hle : (t.blocks.length : ℤ) ≤ t.capacity) (hlt : t.capacity < 2 ^ 31)
    (ht : t.call op = .ok (t', r)) :
    t'.totalBytes = t.totalBytes ∧ ((t'.room = t.room ∧ t'.capacity = t.capacity) ∨
      (t.capacity + t.capacity ≤ t'.capacity ∧ (t'.room : ℤ) = t'.capacity)) := by
  rw [BlockTable.call_eq_plan hle hlt] at ht
  obtain ⟨p, hp, ht⟩ := bind_eq_ok.mp ht
  cases p with
  | keep new s =>
    obtain ⟨rfl, rfl⟩ := pair_inj ht
    exact ⟨rfl, .inl ⟨rfl, rfl⟩⟩
  | extend heap extra new s =>
    have hextra := plan_extra_le hp
    obtain ⟨t'', hres, ht⟩ := bind_eq_ok.mp ht
    obtain ⟨rfl, rfl⟩ := pair_inj ht
    have hbase := wrapInt_add_extra hpos hlt hextra
    obtain ⟨-, htotal, hgrown⟩ := reserve_ok (by omega) (wrapInt_lt _) hres
    exact ⟨htotal, hgrown.imp (fun h => h.2) (fun h => h.2)⟩

/-! ### Calls of the sub-allocator -/

/-- The call of the address space allocator a call makes, if it makes one. -/
def SubOp.call (pageSize : ℕ) : SubOp → Checked (Option Op)
  | .alloc heap wantedSize =>
    if wantedSize = 0 then .ok none
    else do
      let size ← SubAllocator.toPageSize pageSize wantedSize
      return some (.allocate heap size)
  | .allocFixed heap wantedSize offset =>
    if wantedSize = 0 then .ok none
    else do
      let size ← SubAllocator.toPageSize pageSize wantedSize
      return some (.allocateFixed heap size offset)
  | .free none => .ok none
  | .free (some offset) => .ok (some (.deallocate offset))
  | .freeAll => .ok (some .reset)

/-- The return value of a call, given that of the address space allocator. -/
def SubOp.reply : SubOp → Option ℤ → SubReply
  | .alloc _ _, some r => .pointer (if r = badOffset then none else some r.toNat)
  | .alloc _ _, none => .pointer none
  | .allocFixed _ _ offset, some r => .pointer (if r ≠ 0 then none else some offset)
  | .allocFixed _ _ _, none => .pointer none
  | .free _, some r => .freed (decide (r ≠ EINVAL))
  | .free _, none => .freed false
  | .freeAll, _ => .done

def SubOp.count (allocCount : ℕ) (r : ℤ) : SubOp → ℕ
  | .alloc _ _ => if r = badOffset then allocCount else wrapNat 32 (allocCount + 1)
  | .allocFixed _ _ _ => if r ≠ 0 then allocCount else wrapNat 32 (allocCount + 1)
  | .free _ => if r = EINVAL then allocCount else subNat 32 allocCount 1
  | .freeAll => 0

variable {s0 s fresh h u v h' : SubAllocator}

namespace SubAllocator

theorem step_eq (s : SubAllocator) (op : SubOp) : s.step op = do
      match ← op.call s.pageSize with
      | none => .ok (s, op.reply none)
      | some c =>
        let (a, r) ← s.addrAlloc.call c
        return ({ s with addrAlloc := a, allocCount := op.count s.allocCount r },
          op.reply (some r)) := by
  cases op with
  | alloc heap wantedSize =>
    simp only [step, alloc, SubOp.call]
    split_ifs with hzero
    · rfl
    · simp only [bind_assoc, pure_eq_ok, ok_bind, call]
      refine bind_congr fun size _ => bind_congr fun p _ => ?_
      by_cases hbad : p.2 = badOffset
      · simp [hbad, SubOp.reply, SubOp.count]
      · simp [hbad, SubOp.reply, SubOp.count]
  | allocFixed heap wantedSize offset =>
    simp only [step, allocFixed, SubOp.call]
    split_ifs with hzero
    · rfl
    · simp only [bind_assoc, pure_eq_ok, ok_bind, call]
      refine bind_congr fun size _ => bind_congr fun p _ => ?_
      by_cases hr : p.2 = 0
      · simp [hr, SubOp.reply, SubOp.count]
      · simp [hr, SubOp.reply, SubOp.count]
  | free ptr =>
    cases ptr with
    | none => rfl
    | some offset =>
      simp only [step, free, SubOp.call, bind_assoc, pure_eq_ok, ok_bind, call]
      refine bind_congr fun p _ => ?_
      by_cases hr : p.2 = EINVAL
      · simp [hr, SubOp.reply, SubOp.count]
      · simp [hr, SubOp.reply, SubOp.count]
  | freeAll =>
    simp only [step, freeAll, SubOp.call, bind_assoc, pure_eq_ok, ok_bind, call]
    rfl

/-! ### States that agree -/

/-- Two states with related arrays and the same other fields. -/
structure Agree (R : AddressSpaceAllocator → AddressSpaceAllocator → Prop)
    (s s' : SubAllocator) : Prop where
  addrAlloc : R s.addrAlloc s'.addrAlloc
  totalSize : s.totalSize = s'.totalSize
  pageSize : s.pageSize = s'.pageSize
  allocCount : s.allocCount = s'.allocCount

/-- If calls keep arrays related and return the same values, so do the calls of the
sub-allocator. -/
theorem Agree.step {R : AddressSpaceAllocator → AddressSpaceAllocator → Prop}
    (hcall : ∀ a a' op, R a a' → Rel (fun p q => R p.1 q.1 ∧ p.2 = q.2) (a.call op) (a'.call op))
    (s s' : SubAllocator) (op : SubOp) (h : Agree R s s') :
    Rel (fun p q => Agree R p.1 q.1 ∧ p.2 = q.2) (s.step op) (s'.step op) := by
  rw [step_eq, step_eq, h.pageSize]
  cases op.call s'.pageSize with
  | error f => exact .error f
  | ok c =>
    cases c with
    | none => exact .ok ⟨h, rfl⟩
    | some c =>
      refine (hcall _ _ c h.addrAlloc).bind fun p q hpq => .ok ⟨?_, ?_⟩
      · refine ⟨hpq.1, h.totalSize, rfl, ?_⟩
        simp only [hpq.2, h.allocCount]
      · simp only [hpq.2]

/-- Two arrays with the same blocks and room behave alike. -/
def SameTable (a a' : AddressSpaceAllocator) : Prop := ∃ t, Represents a t ∧ Represents a' t

theorem SameTable.call (a a' : AddressSpaceAllocator) (op : Op) (h : SameTable a a') :
    Rel (fun p q => SameTable p.1 q.1 ∧ p.2 = q.2) (a.call op) (a'.call op) := by
  obtain ⟨t, ha, ha'⟩ := h
  have hrel := call_refines ha op
  have hrel' := call_refines ha' op
  cases ht : t.call op with
  | error f =>
    rw [hrel.eq_error_left ht, hrel'.eq_error_left ht]
    exact .error f
  | ok p =>
    obtain ⟨q, hq, hrep, hr⟩ := hrel.exists_ok_left ht
    obtain ⟨q', hq', hrep', hr'⟩ := hrel'.exists_ok_left ht
    rw [hq, hq']
    exact .ok ⟨⟨_, hrep, hrep'⟩, hr.trans hr'.symm⟩

/-! ### Reachable states -/

/-- The fields a run never changes, and the size of the array. -/
structure Grows (s0 s : SubAllocator) : Prop where
  table : ∃ t, Represents s.addrAlloc t ∧ t.totalBytes = s0.totalSize ∧
    (t.room : ℤ) = t.capacity ∧ (t.capacity = 32 ∨ 64 ≤ t.capacity)
  totalSize : s.totalSize = s0.totalSize
  pageSize : s.pageSize = s0.pageSize
  allocCount_lt : s.allocCount < 2 ^ 32

theorem SubOp.count_lt (h : allocCount < 2 ^ 32) (r : ℤ) (op : SubOp) :
    op.count allocCount r < 2 ^ 32 := by
  cases op with
  | alloc heap wantedSize =>
    simp only [SubOp.count]
    split_ifs
    · exact h
    · exact wrapNat_lt 32 _
  | allocFixed heap wantedSize offset =>
    simp only [SubOp.count]
    split_ifs
    · exact h
    · exact wrapNat_lt 32 _
  | free ptr =>
    simp only [SubOp.count]
    split_ifs
    · exact h
    · exact subNat_lt 32 _ _
  | freeAll => exact Nat.two_pow_pos 32

theorem Grows.step (h : Grows s0 s) (op : SubOp) :
    (s.step op).Ensures (fun p => Grows s0 p.1) (fun _ => True) := by
  rw [step_eq]
  cases op.call s.pageSize with
  | error f => trivial
  | ok c =>
    rw [ok_bind]
    cases c with
    | none => exact h
    | some c =>
      cases hcall : s.addrAlloc.call c with
      | error f =>
        simp only [hcall, error_bind]
        trivial
      | ok p =>
        simp only [hcall, ok_bind]
        obtain ⟨t, hrep, htotal, hroom, hcap⟩ := h.table
        obtain ⟨q, hq, hrep', -⟩ := (call_refines hrep c).exists_ok hcall
        have hle := hrep.size_le
        obtain ⟨htotal', hgrown⟩ := BlockTable.call_room (by omega) hle hrep.capacity_lt hq
        refine ⟨⟨q.1, hrep', htotal'.trans htotal, ?_, ?_⟩, h.totalSize, h.pageSize,
          SubOp.count_lt h.allocCount_lt _ _⟩
        · omega
        · omega

theorem construct_grows (h : construct heap totalSize pageSize = .ok s0) :
    Grows s0 s0 ∧ Represents s0.addrAlloc (.init s0.totalSize 32) ∧ s0.allocCount = 0 ∧
      s0.totalSize < 2 ^ 64 ∧ s0.pageSize < 2 ^ 64 := by
  obtain ⟨a, ha, h⟩ := bind_eq_ok.mp h
  obtain rfl := ok.inj h
  obtain ⟨-, hrep⟩ := init_refines (by decide) ha
  refine ⟨⟨⟨_, hrep, ?_, rfl, .inl rfl⟩, rfl, rfl, by norm_num⟩, hrep, rfl,
    wrapNat_lt 64 _, wrapNat_lt 64 _⟩
  exact wrapNat_of_lt (wrapNat_lt 64 _)

/-! ### Saving and loading -/

theorem saveBlocks_eq (pre bs junk : List AddressBlock) :
    saveBlocks (pre ++ bs ++ junk) bs.length pre.length = .ok (bs.flatMap AddressBlock.put) := by
  induction bs generalizing pre with
  | nil => rfl
  | cons b bs ih =>
    have hrest := ih (pre ++ [b])
    simp only [append_assoc, cons_append, nil_append, length_append,
      length_cons, length_nil] at hrest
    simp only [length_cons, saveBlocks, append_assoc, cons_append,
      readAt_append_cons, ok_bind, hrest, pure_eq_ok, flatMap_cons]

def image (s : SubAllocator) (t : BlockTable) : Bytes :=
  putBe 4 t.blocks.length ++ putBe 4 (t.capacity % 2 ^ 32).toNat ++ putBe 8 t.totalBytes ++
    t.blocks.flatMap AddressBlock.put ++
    putBe 8 s.pageSize ++ putBe 8 s.totalSize ++ putBe 4 s.allocCount

variable {s : SubAllocator} {t : BlockTable}

theorem save_eq (h : Represents s.addrAlloc t) : s.save = .ok (s.image t) := by
  obtain ⟨junk, hjunk, -⟩ := h.blocks
  have hblocks := saveBlocks_eq [] t.blocks junk
  simp only [nil_append, length_nil] at hblocks
  unfold save image
  simp only [h.size, check_of h.size_pos, ok_bind, hjunk, hblocks, h.capacity, h.totalBytes,
    pure_eq_ok]

theorem loadBlocks_eq (pre bs rest : List AddressBlock) (tail : Bytes) :
    loadBlocks bs.length pre.length (pre ++ rest) (bs.flatMap AddressBlock.put ++ tail) =
      if bs.length ≤ rest.length then .ok (pre ++ bs ++ rest.drop bs.length, tail)
      else .error .outOfBounds := by
  induction bs generalizing pre rest with
  | nil => simp [loadBlocks]
  | cons b bs ih =>
    simp only [length_cons, flatMap_cons, append_assoc, loadBlocks, AddressBlock.get_put]
    cases rest with
    | nil =>
      rw [append_nil, writeAt_of_le le_rfl, if_neg (by simp), error_bind]
    | cons x rest =>
      have hrest := ih (pre ++ [b]) rest
      simp only [append_assoc, cons_append, nil_append, length_append,
        length_cons, length_nil] at hrest
      rw [writeAt_append_cons, ok_bind, hrest]
      simp only [length_cons, Nat.add_le_add_iff_right, drop_succ_cons, cons_append]

theorem wrapInt_of_image (hlo : 0 ≤ c) (hhi : c < 2 ^ 31) :
    wrapInt ((c % 2 ^ 32).toNat : ℕ) = c := by
  have hc : ((c % 2 ^ 32).toNat : ℤ) = c := by omega
  rw [hc]
  exact wrapInt_of_bounds (by omega) hhi

/-- The state restored from a saved one, over an array with the given unused rest. -/
def restored (s : SubAllocator) (t : BlockTable) (rest : List AddressBlock) : SubAllocator :=
  { s with addrAlloc := ⟨t.blocks ++ rest, t.blocks.length, t.capacity, t.totalBytes⟩ }

theorem load_image (hs : Grows s0 s) (hrep : Represents s.addrAlloc t)
    (hsize : s0.totalSize < 2 ^ 64) (hpage : s0.pageSize < 2 ^ 64)
    (htotal : t.totalBytes = s0.totalSize)
    (hinit : init heap fresh.totalSize initialCapacity = .ok a)
    (rest : Bytes) : fresh.load heap (s.image t ++ rest) =
      if t.blocks.length ≤ 32 then .ok (s.restored t (a.blocks.drop t.blocks.length), rest)
      else .error .outOfBounds := by
  obtain ⟨-, hinit'⟩ := init_refines (by decide) hinit
  obtain ⟨junk, hjunk, hroom⟩ := hinit'.blocks
  have hlen : a.blocks.length = 32 := by
    rw [hjunk, length_append, ← hroom]
    rfl
  have hle := hrep.size_le
  have hpos := hrep.size_pos
  have hcap := hrep.capacity_lt
  have hblocks := loadBlocks_eq [] t.blocks a.blocks
  simp only [nil_append, length_nil, hlen] at hblocks
  have hn :
      wrapInt (t.blocks.length : ℤ) = t.blocks.length := wrapInt_of_bounds (by omega) (by omega)
  unfold load image
  rw [hinit]
  simp only [append_assoc,
    getBe_putBe 4 (lt_pow_bytes (show t.blocks.length < 2 ^ (8 * 4) by omega)),
    getBe_putBe 4 (lt_pow_bytes (show (t.capacity % 2 ^ 32).toNat < 2 ^ (8 * 4) by omega)),
    getBe_putBe 8 (lt_pow_bytes (show t.totalBytes < 2 ^ (8 * 8) by omega)), hn,
    check_of (show (1 : ℤ) ≤ t.blocks.length by omega), ok_bind, Int.toNat_natCast, hblocks,
    wrapInt_of_image (show 0 ≤ t.capacity by omega) hcap]
  split_ifs with hfit
  · have hpage' : s.pageSize < 256 ^ 8 := lt_pow_bytes (hs.pageSize ▸ hpage)
    have hsize' : s.totalSize < 256 ^ 8 := lt_pow_bytes (hs.totalSize ▸ hsize)
    have hcount' : s.allocCount < 256 ^ 4 := lt_pow_bytes hs.allocCount_lt
    simp only [ok_bind, pure_eq_ok, getBe_putBe 8 hpage', getBe_putBe 8 hsize',
      getBe_putBe 4 hcount']
    rfl
  · rfl

/-! ### Replaying the calls that made the array grow -/

/-- A state `h` with the initial array, and two with the same blocks that claim a
larger one: `u` has only the initial entries, `v` as many as it claims. -/
structure Replay (h u v : SubAllocator) : Prop where
  tables : ∃ t tu tv, Represents h.addrAlloc t ∧ Represents u.addrAlloc tu ∧
    Represents v.addrAlloc tv ∧ Outgrown t tu ∧ Outgrown t tv ∧ tu.room = 32 ∧
    (tv.room : ℤ) = tv.capacity
  pageSize_left : h.pageSize = u.pageSize
  pageSize_right : h.pageSize = v.pageSize

/-- One call of the replay: `u` and `v` stay in step with `h`, or the call makes the
array of `h` grow and stops `u` but not `v`. -/
theorem Replay.step {op : SubOp} {o : SubReply} (hr : Replay h u v)
    (hstep : h.step op = .ok (h', o)) :
    (∃ u' v', u.step op = .ok (u', o) ∧ v.step op = .ok (v', o) ∧ Replay h' u' v') ∨
      (u.step op = .error .outOfBounds ∧ ∃ v', v.step op = .ok (v', o)) := by
  obtain ⟨t, tu, tv, hrep, hrepu, hrepv, hout, houtv, hroom, hroomv⟩ := hr.tables
  rw [step_eq] at hstep
  rw [step_eq u, step_eq v, ← hr.pageSize_left, ← hr.pageSize_right]
  obtain ⟨c, hc, hstep⟩ := bind_eq_ok.mp hstep
  rw [hc, ok_bind, ok_bind]
  cases c with
  | none =>
    obtain ⟨rfl, rfl⟩ := pair_inj hstep
    exact .inl ⟨u, v, rfl, rfl, hr⟩
  | some c =>
    obtain ⟨⟨a, r⟩, ha, hstep⟩ := bind_eq_ok.mp hstep
    obtain ⟨rfl, rfl⟩ := pair_inj hstep
    have href := call_refines hrep c
    have hrefu := call_refines hrepu c
    have hrefv := call_refines hrepv c
    obtain ⟨⟨t', r'⟩, ht, hrep', rfl⟩ := href.exists_ok ha
    rcases hout.call ht with ⟨hcap, hroom', htotal, htu⟩ | ⟨hcap, hstop, -⟩
    · rcases houtv.call ht with ⟨-, -, -, htv⟩ | ⟨hcap', -⟩
      · obtain ⟨⟨au, ru⟩, hau, hrepu', rfl⟩ := hrefu.exists_ok_left htu
        obtain ⟨⟨av, rv⟩, hav, hrepv', rfl⟩ := hrefv.exists_ok_left htv
        simp only [hau, hav]
        refine .inl ⟨_, _, rfl, rfl, ⟨⟨t', _, _, hrep', hrepu', hrepv', ?_, ?_, hroom, hroomv⟩,
          rfl, rfl⟩⟩
        · exact hout.after hrep' hcap hroom' htotal
        · exact houtv.after hrep' hcap hroom' htotal
      · exact absurd hcap hcap'
    · rcases houtv.call ht with ⟨hcap', -⟩ | ⟨-, -, hgoes⟩
      · exact absurd hcap' hcap
      · obtain ⟨tv', htv⟩ := hgoes hroomv
        obtain ⟨⟨av, rv⟩, hav, -, rfl⟩ := hrefv.exists_ok_left htv
        simp only [hrefu.eq_error_left (hstop hroom), hav]
        exact .inr ⟨rfl, _, rfl⟩

theorem Replay.diverges {ops : List SubOp} (hr : Replay h u v)
    (hrun : (run SubAllocator.step h ops).2 = .ok h') (hcap : h'.addrAlloc.capacity ≠ 32) :
    (run SubAllocator.step u ops).1 ≠ (run SubAllocator.step v ops).1 := by
  induction ops generalizing h u v with
  | nil =>
    obtain ⟨t, tu, tv, hrep, -, -, hout, -⟩ := hr.tables
    obtain rfl := ok.inj hrun
    rw [hrep.capacity, hout.capacity] at hcap
    exact absurd rfl hcap
  | cons op ops ih =>
    cases hstep : h.step op with
    | error f =>
      rw [run_cons_error hstep] at hrun
      simp at hrun
    | ok p =>
      rw [run_cons_ok hstep] at hrun
      rcases hr.step hstep with ⟨u1, v1, hu, hv, hr1⟩ | ⟨hu, v1, hv⟩
      · rw [run_cons_ok hu, run_cons_ok hv]
        exact fun heq => ih hr1 hrun (cons.inj heq).2
      · rw [run_cons_error hu, run_cons_ok hv]
        simp

/-! ### The round trip -/

/-- Save `s` and load it into `fresh`, from a stream that goes on with `rest`. -/
def reload (heap : Heap) (s fresh : SubAllocator) (rest : Bytes) :
    Checked (SubAllocator × Bytes) := do
  let bytes ← s.save
  fresh.load heap (bytes ++ rest)

/-- Loading the saved state into a new sub-allocator never writes past the array that `load`
allocated, restores every field, and leaves an allocator that no later calls can tell from the saved
one. -/
def RoundTrip (s : SubAllocator) : Prop :=
  ∀ heap totalSize pageSize fresh heap' rest, construct heap totalSize pageSize = .ok fresh →
    (reload heap' s fresh rest).Ensures
      (fun p => p.2 = rest ∧ p.1.addrAlloc.inUse = s.addrAlloc.inUse ∧
        p.1.addrAlloc.capacity = s.addrAlloc.capacity ∧
        p.1.addrAlloc.totalBytes = s.addrAlloc.totalBytes ∧ p.1.totalSize = s.totalSize ∧
        p.1.pageSize = s.pageSize ∧ p.1.allocCount = s.allocCount ∧
        ∀ ops, trace step p.1 ops = trace step s ops)
      (· = .outOfMemory)

theorem restored_represents (hrep : Represents s.addrAlloc t)
    (hfit : t.blocks.length ≤ 32) (hlen : blocks.length = 32) :
    Represents (s.restored t (blocks.drop t.blocks.length)).addrAlloc { t with room := 32 } := by
  refine { hrep with blocks := ⟨_, rfl, ?_⟩, size := rfl, capacity := rfl, totalBytes := rfl }
  simp only [length_drop, hlen]
  omega

theorem init_length (h : init heap size initialCapacity = .ok a) : a.blocks.length = 32 := by
  obtain ⟨-, hrep⟩ := init_refines (by decide) h
  obtain ⟨junk, hjunk, hroom⟩ := hrep.blocks
  rw [hjunk, length_append, ← hroom]
  rfl

theorem freeAll_step (hrep : Represents s.addrAlloc t) :
    ∃ s', s.step .freeAll = .ok (s', .done) ∧ Represents s'.addrAlloc t.reset ∧
      s'.pageSize = s.pageSize := by
  obtain ⟨a, ha, hrep'⟩ := reset_refines hrep
  refine ⟨{ s with addrAlloc := a, allocCount := 0 }, ?_, hrep', rfl⟩
  simp only [SubAllocator.step, freeAll, ha, ok_bind, pure_eq_ok]

/-- After `freeAll`, a table that has outgrown the initial array has the blocks of a
freshly constructed one. -/
theorem reset_outgrown (hsize : s0.totalSize < 2 ^ 64)
    (htotal : t.totalBytes = s0.totalSize) (hcap : 64 ≤ t.capacity) (hlt : t.capacity < 2 ^ 31)
    (hroom : 32 ≤ t.room) : Outgrown (.init s0.totalSize 32) t.reset where
  blocks := by rw [BlockTable.reset, htotal, BlockTable.init]
  totalBytes := by
    rw [BlockTable.reset, htotal]
    exact (wrapNat_of_lt hsize).symm
  length_le := by simp [BlockTable.init]
  capacity := rfl
  room := rfl
  capacity_ge := hcap
  room_ge := hroom
  capacity_lt := hlt

theorem run_grows {ops : List SubOp} (hcons : construct heap totalSize pageSize = .ok s0)
    (hrun : (run SubAllocator.step s0 ops).2 = .ok s) : Grows s0 s := by
  have hstep (s : SubAllocator) (op : SubOp) (hs : Grows s0 s) (_ : True) := hs.step op
  exact (run_invariant hstep ops s0 (construct_grows hcons).1
    (meets_of_forall ops s0 fun _ _ _ => trivial)).of_ok hrun

theorem roundTrip_of_capacity (h : s.Reachable)
    (hcap : s.addrAlloc.capacity = 32) : s.RoundTrip := by
  obtain ⟨heap, totalSize, pageSize, s0, ops, hcons, hrun⟩ := h
  have hgrows := run_grows hcons hrun
  obtain ⟨-, -, -, hsize, hpage⟩ := construct_grows hcons
  obtain ⟨t, hrep, htotal, hroom, -⟩ := hgrows.table
  rw [hrep.capacity] at hcap
  intro heap totalSize pageSize fresh heap' rest _
  unfold reload
  rw [save_eq hrep, ok_bind]
  cases hinit : init heap' fresh.totalSize initialCapacity with
  | error f =>
    rw [load, hinit]
    exact (init_ensures heap' fresh.totalSize (by decide)).of_error hinit
  | ok a =>
    have hle := hrep.size_le
    have hfit : t.blocks.length ≤ 32 := by omega
    have hrep' := restored_represents hrep hfit (init_length hinit)
    have hsame : { t with room := 32 } = t := by
      obtain ⟨blocks, room, capacity, totalBytes⟩ := t
      simp only [BlockTable.mk.injEq, true_and, and_true]
      simp only at hroom hcap
      omega
    rw [hsame] at hrep'
    rw [load_image hgrows hrep hsize hpage htotal hinit, if_pos hfit]
    refine ⟨rfl, ?_, hrep.capacity.symm, hrep.totalBytes.symm, rfl, rfl, rfl, fun ops => ?_⟩
    · rw [hrep.inUse_eq, hrep'.inUse_eq]
    · exact trace_eq (Agree.step SameTable.call) ⟨⟨t, hrep', hrep⟩, rfl, rfl, rfl⟩ ops

/-- A state whose array has grown does not survive the round trip: with more than 32
blocks `load` runs past its array, with fewer the calls that made the array grow do. -/
theorem capacity_of_roundTrip (h : s.Reachable) (hrt : s.RoundTrip) :
    s.addrAlloc.capacity = 32 := by
  obtain ⟨heap, totalSize, pageSize, s0, ops, hcons, hrun⟩ := h
  have hgrows := run_grows hcons hrun
  obtain ⟨-, hrep0, -, hsize, hpage⟩ := construct_grows hcons
  obtain ⟨t, hrep, htotal, hroom, hcap⟩ := hgrows.table
  rw [hrep.capacity]
  by_contra hne
  have hgrown : 64 ≤ t.capacity := by omega
  have hlt := hrep.capacity_lt
  obtain ⟨fresh, hfresh⟩ : ∃ fresh, construct ample 0 0 = .ok fresh := ⟨_, rfl⟩
  obtain ⟨a, hinit⟩ : ∃ a, init ample fresh.totalSize initialCapacity = .ok a := ⟨_, rfl⟩
  have hload := hrt ample 0 0 fresh ample [] hfresh
  rw [reload, save_eq hrep, ok_bind, load_image hgrows hrep hsize hpage htotal hinit] at hload
  by_cases hfit : t.blocks.length ≤ 32
  · rw [if_pos hfit] at hload
    obtain ⟨-, -, -, -, -, -, -, htrace⟩ := hload
    have hrepu := restored_represents hrep hfit (init_length hinit)
    obtain ⟨u, hu, hrepu', hpageu⟩ := freeAll_step hrepu
    obtain ⟨v, hv, hrepv', hpagev⟩ := freeAll_step hrep
    have hreplay : Replay s0 u v := by
      refine ⟨⟨_, _, _, hrep0, hrepu', hrepv', ?_, ?_, rfl, hroom⟩, ?_, ?_⟩
      · exact reset_outgrown hsize htotal hgrown hlt le_rfl
      · exact reset_outgrown hsize htotal hgrown hlt (by omega)
      · exact hgrows.pageSize.symm.trans hpageu.symm
      · exact hgrows.pageSize.symm.trans hpagev.symm
    refine hreplay.diverges hrun (by rw [hrep.capacity]; exact hne) ?_
    have heq := congrArg Prod.fst (htrace (.freeAll :: ops))
    simp only [trace, run_cons_ok hu, run_cons_ok hv] at heq
    exact (cons.inj heq).2
  · rw [if_neg hfit] at hload
    exact absurd (show Fault.outOfBounds = .outOfMemory from hload) (by decide)

/-- For every state a client can produce, the round trip works exactly when the block
array still has its initial capacity. -/
theorem roundTrip_iff (s : SubAllocator) (h : s.Reachable) :
    s.RoundTrip ↔ s.addrAlloc.capacity = 32 :=
  ⟨capacity_of_roundTrip h, roundTrip_of_capacity h⟩

theorem roundTrip_example : ∃ s : SubAllocator, s.Reachable ∧ s.RoundTrip := by
  have hreach : SubAllocator.Reachable _ :=
    ⟨ample, 4096, 16, _, [.alloc ample 10], rfl, rfl⟩
  exact ⟨_, hreach, (roundTrip_iff _ hreach).mpr rfl⟩

/-- Thirty-two allocations make the array grow, and the saved state cannot be loaded. -/
theorem not_roundTrip_of_many : ∃ s : SubAllocator, s.Reachable ∧ ¬ s.RoundTrip := by
  obtain ⟨s0, hcons⟩ : ∃ s0, construct ample 4096 16 = .ok s0 := ⟨_, rfl⟩
  have hcap : ((construct ample 4096 16).bind fun s0 =>
      (run SubAllocator.step s0 (List.replicate 32 (.alloc ample 10))).2.map
        (·.addrAlloc.capacity)) = .ok 64 := by decide +kernel
  rw [hcons] at hcap
  obtain ⟨s, hrun, hs⟩ := map_eq_ok.mp hcap
  have hreach : s.Reachable := ⟨ample, 4096, 16, s0, _, hcons, hrun⟩
  exact ⟨s, hreach, fun hrt => absurd (capacity_of_roundTrip hreach hrt) (by omega)⟩

end SubAllocator

end AndroidEmu.AddressSpace
