import AndroidEmu.SharedSlots.MemBlock

/-!
# Contexts that share the blocks

An `AddressSpaceSharedSlotsHostMemoryAllocatorContext` keeps for an address the size and a pointer
to the block. A block that becomes all free may be destroyed. Sizes are aligned as 64-bit numbers
and kept as 32-bit ones, and a size of zero takes nothing from a block.
-/

namespace AndroidEmu.SharedSlots

open CS Math Function List Piece OrderedMap

/-! ### The state -/

/-- A block in `g_blocks`. The number is the address of the object itself: objects that are
created later have other numbers, and zero is the null pointer. -/
structure Node where
  id : ℕ
  block : MemBlock

abbrev Blocks := List (ℕ × Node)

/-- An entry of `m_allocations`: the physical address, the size, and the block. -/
structure Allocation where
  phys : ℕ
  size : ℕ
  owner : ℕ
  deriving DecidableEq

/-- The blocks, the number of the next one, and for each context its allocations. -/
structure State where
  blocks : Blocks
  nextId : ℕ
  allocations : ℕ → List Allocation

/-- What the rest of the program answers during a ping: the page size, the start of the area, the
offset of a new region or a failure, whether it was mapped, and the bytes of a new buffer. -/
structure Host where
  guestPageSize : ℕ
  physAddrStart : ℕ
  region : Option ℕ
  mapped : Bool
  bits : ℕ → UInt8

/-- `AddressSpaceDevicePingInfo`: the fields that are used. -/
structure PingInfo where
  metadata : ℕ
  size : ℕ
  physAddr : ℕ
  deriving DecidableEq

/-! ### Requests -/

/-- Round up to a page. -/
def align (value alignment : ℕ) : ℕ :=
  ((BitVec.ofNat 64 value + BitVec.ofNat 64 alignment - 1) &&&
    ~~~(BitVec.ofNat 64 alignment - 1)).toNat

def alignedSize (size guestPageSize : ℕ) : ℕ := wrapNat 32 (align size guestPageSize)

def allocateAddressSpaceBlock (host : Host) : ℕ :=
  match host.region with
  | none => 0
  | some offset => wrapNat 64 (host.physAddrStart + offset)

def newBlockSize (alignedSize : ℕ) : ℕ := max alignedSize (64 <<< 20)

/-- The constructor of `MemBlock`. -/
def MemBlock.new (host : Host) (sz : ℕ) : Checked MemBlock :=
  let physBase := allocateAddressSpaceBlock host
  if physBase = 0 then .error .exit
  else if host.mapped = false then .error .exit
  else .ok (.create physBase sz host.bits)

/-- The loop of `allocate`: the first block with room serves the request. -/
def allocateFrom (alignedSize : ℕ) : Blocks → Checked (Option (Blocks × ℕ × ℕ))
  | [] => .ok none
  | (key, node) :: rest => do
    let (block, physAddr) ← node.block.allocate alignedSize
    if physAddr ≠ 0 then
      return some ((key, { node with block := block }) :: rest, physAddr, node.id)
    else
      let found ← allocateFrom alignedSize rest
      return found.map fun r => ((key, { node with block := block }) :: r.1, r.2)

/-- Run an operation on the block a pointer points to. -/
def atBlock (id : ℕ) (f : MemBlock → Checked MemBlock) : Blocks → Checked (Blocks × MemBlock)
  | [] => .error (if id = 0 then .nullPointer else .useAfterFree)
  | (key, node) :: rest =>
    if node.id = id then do
      let block ← f node.block
      return ((key, { node with block := block }) :: rest, block)
    else do
      let (rest, block) ← atBlock id f rest
      return ((key, node) :: rest, block)

def gcEmptyBlocks : ℕ → Blocks → Blocks
  | _, [] => []
  | allowedEmpty, (key, node) :: rest =>
    if node.block.isAllFree then
      match allowedEmpty with
      | 0 => gcEmptyBlocks 0 rest
      | allowedEmpty + 1 => (key, node) :: gcEmptyBlocks allowedEmpty rest
    else (key, node) :: gcEmptyBlocks allowedEmpty rest

namespace State

def populatePhysAddr (s : State) (host : Host) (c : ℕ) (info : PingInfo)
    (physAddr alignedSize owner : ℕ) : Checked (State × PingInfo) :=
  if (s.allocations c).any (·.phys = physAddr) then .error .exit
  else .ok (
    { s with allocations :=
        Function.update s.allocations c (⟨physAddr, alignedSize, owner⟩ :: s.allocations c) },
    { info with
      metadata := 0, physAddr := subNat 64 physAddr host.physAddrStart, size := alignedSize })

def failure : ℕ := 2 ^ 64 - 1

def allocate (s : State) (host : Host) (c : ℕ) (info : PingInfo) : Checked (State × PingInfo) := do
  let alignedSize := alignedSize info.size host.guestPageSize
  match ← allocateFrom alignedSize s.blocks with
  | some (blocks, physAddr, owner) =>
    populatePhysAddr { s with blocks := blocks } host c info physAddr alignedSize owner
  | none =>
    let newBlock ← MemBlock.new host (newBlockSize alignedSize)
    let (newBlock, physAddr) ← newBlock.allocate alignedSize
    if physAddr = 0 then return (s, { info with metadata := failure })
    else
      match OrderedMap.insert s.blocks newBlock.physBase ⟨s.nextId, newBlock⟩ with
      | none => .error .exit
      | some blocks =>
        populatePhysAddr { s with blocks := blocks, nextId := s.nextId + 1 } host c info physAddr
          alignedSize s.nextId

def unallocate (s : State) (c physAddr : ℕ) : Checked (State × ℕ) :=
  match (s.allocations c).find? (·.phys = physAddr) with
  | none => .ok (s, failure)
  | some i => do
    let (blocks, block) ← atBlock i.owner (·.unallocate physAddr i.size) s.blocks
    let allocations := Function.update s.allocations c
      ((s.allocations c).filter (·.phys ≠ physAddr))
    return ({ s with
        blocks := if block.isAllFree then gcEmptyBlocks 1 blocks else blocks
        allocations := allocations },
      0)

/-- Allocate, unallocate, or ask whether shared slots are supported. The command is an `int`, the
low half of the metadata. -/
def perform (s : State) (host : Host) (c : ℕ) (info : PingInfo) : Checked (State × PingInfo) :=
  match wrapNat 32 info.metadata with
  | 1 => s.allocate host c info
  | 2 => do
    let (s, result) ← s.unallocate c info.physAddr
    return (s, { info with metadata := result })
  | 3 => .ok (s, { info with metadata := 0 })
  | _ => .ok (s, { info with metadata := failure })

/-- The loop of `clear`. -/
def releaseAll : List Allocation → Blocks → Checked Blocks
  | [], blocks => .ok blocks
  | a :: rest, blocks => do
    let (blocks, _) ← atBlock a.owner (·.unallocate a.phys a.size) blocks
    releaseAll rest blocks

/-- `~AddressSpaceSharedSlotsHostMemoryAllocatorContext`. -/
def clear (s : State) (c : ℕ) : Checked State := do
  let blocks ← releaseAll (s.allocations c) s.blocks
  return { s with blocks := blocks, allocations := Function.update s.allocations c [] }

/-- A ping on a context, or its destruction, which calls `clear`. -/
inductive Op
  | ping (host : Host) (c : ℕ) (info : PingInfo)
  | destroy (c : ℕ)

def step (s : State) : Op → Checked (State × Option PingInfo)
  | .ping host c info => do
    let (s, info) ← s.perform host c info
    return (s, some info)
  | .destroy c => do
    let s ← s.clear c
    return (s, none)

def initial : State := ⟨[], 1, fun _ => []⟩

end State

/-- No free subblock is large enough. -/
def NeedsBlock (blocks : Blocks) (n : ℕ) : Prop :=
  ∀ x ∈ blocks, ∀ r ∈ x.2.block.freeSubblocks, r.2 < n

/-- The host gives a region for a block of the size, away from the others, and maps it. -/
structure Grants (blocks : Blocks) (host : Host) (sz : ℕ) : Prop where
  base_pos : 0 < allocateAddressSpaceBlock host
  fits : allocateAddressSpaceBlock host + sz < 2 ^ 64
  mapped : host.mapped = true
  apart : ∀ x ∈ blocks, allocateAddressSpaceBlock host + sz ≤ x.1 ∨
    x.1 + x.2.block.bitsSize ≤ allocateAddressSpaceBlock host

namespace Grants

variable {blocks : Blocks} {host : Host} {n : ℕ}

theorem new_eq (h : Grants blocks host n) :
    MemBlock.new host n = .ok (.create (allocateAddressSpaceBlock host) n host.bits) := by
  have hpos := h.base_pos
  have hmapped := h.mapped
  unfold MemBlock.new
  rw [if_neg (by omega), if_neg (by simp [hmapped])]

theorem placed (h : Grants blocks host (newBlockSize n)) (hn : n < 2 ^ 32) :
    (MemBlock.create (allocateAddressSpaceBlock host) (newBlockSize n) host.bits).Placed where
  base_pos := h.base_pos
  size_pos := lt_max_of_lt_right (by decide)
  size_lt := max_lt hn (by decide)
  fits := h.fits

end Grants

/-- The condition on a step. A request to allocate must not come out as zero or as less than
was asked, and if it needs a new block, the host must give one. -/
def Proper (s : State) : State.Op → Prop
  | .ping host _ info => wrapNat 32 info.metadata = 1 →
    0 < alignedSize info.size host.guestPageSize ∧
    info.size ≤ alignedSize info.size host.guestPageSize ∧
    (NeedsBlock s.blocks (alignedSize info.size host.guestPageSize) →
      Grants s.blocks host (newBlockSize (alignedSize info.size host.guestPageSize)))
  | .destroy _ => True

instance (blocks : Blocks) (n : ℕ) : Decidable (NeedsBlock blocks n) :=
  inferInstanceAs (Decidable (∀ x ∈ blocks, ∀ r ∈ x.2.block.freeSubblocks, r.2 < n))

instance (blocks : Blocks) (host : Host) (sz : ℕ) : Decidable (Grants blocks host sz) :=
  decidable_of_iff (0 < allocateAddressSpaceBlock host ∧
      allocateAddressSpaceBlock host + sz < 2 ^ 64 ∧ host.mapped = true ∧
      ∀ x ∈ blocks, allocateAddressSpaceBlock host + sz ≤ x.1 ∨
        x.1 + x.2.block.bitsSize ≤ allocateAddressSpaceBlock host)
    ⟨fun h => ⟨h.1, h.2.1, h.2.2.1, h.2.2.2⟩, fun h => ⟨h.base_pos, h.fits, h.mapped, h.apart⟩⟩

instance (s : State) : DecidablePred (Proper s)
  | .ping _ _ _ => inferInstanceAs (Decidable (_ → _))
  | .destroy _ => isTrue trivial

/-! ### Blocks and pieces -/

/-- The blocks are in order, each has the pieces of its number, and they lie apart. -/
structure Laid (blocks : Blocks) (pieces : ℕ → List Piece) : Prop where
  key : ∀ x ∈ blocks, x.1 = x.2.block.physBase
  holds : ∀ x ∈ blocks, x.2.block.Holds (pieces x.2.id)
  apart : blocks.Pairwise fun x y => x.1 + x.2.block.bitsSize ≤ y.1
  distinct : blocks.Pairwise fun x y => x.2.id ≠ y.2.id

/-- The allocation is an allocated piece of its block. -/
def Backed (blocks : Blocks) (pieces : ℕ → List Piece) (a : Allocation) : Prop :=
  ∃ x ∈ blocks, x.2.id = a.owner ∧
    ∃ r ∈ Piece.usedRanges (pieces a.owner), a.phys = x.1 + r.1 ∧ a.size = r.2

variable {b : MemBlock} {q id nextId c physAddr n owner key phys : ℕ} {x y : ℕ × Node}

variable {ps : List Piece}

namespace Laid

variable {blocks xs ys : Blocks} {pieces : ℕ → List Piece} {key : ℕ} {node : Node}

theorem sorted (h : Laid blocks pieces) : Sorted blocks := by
  apply h.apart.imp_of_mem
  intro x y hx _ hle
  have := (h.holds x hx).placed.size_pos
  omega

theorem eq_of_covers (h : Laid blocks pieces) (hx : x ∈ blocks) (hy : y ∈ blocks)
    (hqx : x.1 ≤ q ∧ q < x.1 + x.2.block.bitsSize)
    (hqy : y.1 ≤ q ∧ q < y.1 + y.2.block.bitsSize) : x = y := by
  have : Std.Symm fun x y : ℕ × Node =>
      x.1 + x.2.block.bitsSize ≤ y.1 ∨ y.1 + y.2.block.bitsSize ≤ x.1 := ⟨fun _ _ hor => hor.symm⟩
  have hapart : blocks.Pairwise fun x y =>
      x.1 + x.2.block.bitsSize ≤ y.1 ∨ y.1 + y.2.block.bitsSize ≤ x.1 := h.apart.imp .inl
  by_contra hne
  have := hapart.forall hx hy hne
  omega

theorem sublist (h : Laid blocks pieces) (hsub : xs.Sublist blocks) : Laid xs pieces :=
  ⟨fun x hx => h.key x (hsub.mem hx), fun x hx => h.holds x (hsub.mem hx), h.apart.sublist hsub,
    h.distinct.sublist hsub⟩

theorem ne_id (h : Laid (xs ++ (key, node) :: ys) pieces)
    (hx : x ∈ xs ∨ x ∈ ys) : x.2.id ≠ node.id := by
  obtain ⟨-, hrest, hcross⟩ := pairwise_append.mp h.distinct
  rcases hx with hx | hx
  · exact hcross x hx _ mem_cons_self
  · exact ((pairwise_cons.mp hrest).1 x hx).symm

theorem replace (h : Laid (xs ++ (key, node) :: ys) pieces) (hb : b.Holds ps)
    (hbase : b.physBase = node.block.physBase) (hsize : b.bitsSize = node.block.bitsSize) :
    Laid (xs ++ (key, { node with block := b }) :: ys) (update pieces node.id ps) := by
  have hmem : ∀ x ∈ xs ++ (key, { node with block := b }) :: ys,
      x = (key, { node with block := b }) ∨ (x ∈ xs ∨ x ∈ ys) := by
    intro x hx
    simp only [mem_append, mem_cons] at hx
    tauto
  have hold : ∀ x, x ∈ xs ∨ x ∈ ys → x ∈ xs ++ (key, node) :: ys := by
    simp only [mem_append, mem_cons]
    tauto
  -- order, distance and numbers only depend on what does not change
  have houtline : (xs ++ (key, { node with block := b }) :: ys).map
        (fun x => (x.1, x.2.block.bitsSize, x.2.id)) =
      (xs ++ (key, node) :: ys).map fun x => (x.1, x.2.block.bitsSize, x.2.id) := by simp [hsize]
  constructor
  case key =>
    intro x hx
    rcases hmem x hx with rfl | hx
    · rw [hbase]
      exact h.key (key, node) (by simp)
    · exact h.key x (hold x hx)
  case holds =>
    intro x hx
    rcases hmem x hx with rfl | hx
    · rwa [update_self]
    · rw [update_of_ne (h.ne_id hx)]
      exact h.holds x (hold x hx)
  case apart =>
    have hR := h.apart
    rw [← pairwise_map (f := fun x : ℕ × Node => (x.1, x.2.block.bitsSize, x.2.id))
      (R := fun p q => p.1 + p.2.1 ≤ q.1), ← houtline, pairwise_map] at hR
    exact hR
  case distinct =>
    have hR := h.distinct
    rw [← pairwise_map (f := fun x : ℕ × Node => (x.1, x.2.block.bitsSize, x.2.id))
      (R := fun p q => p.2.2 ≠ q.2.2), ← houtline, pairwise_map] at hR
    exact hR

theorem insert (h : Laid (xs ++ ys) pieces)
    (hsplit : Split xs b.physBase ys) (hb : b.Holds ps)
    (hid : ∀ x ∈ xs ++ ys, x.2.id ≠ id)
    (hapart : ∀ x ∈ xs ++ ys, b.physBase + b.bitsSize ≤ x.1 ∨
      x.1 + x.2.block.bitsSize ≤ b.physBase) :
    Laid (xs ++ (b.physBase, ⟨id, b⟩) :: ys) (update pieces id ps) := by
  have hmem : ∀ x ∈ xs ++ (b.physBase, ⟨id, b⟩) :: ys,
      x = (b.physBase, ⟨id, b⟩) ∨ x ∈ xs ++ ys := by
    intro x hx
    simp only [mem_append, mem_cons] at hx ⊢
    tauto
  constructor
  case key =>
    intro x hx
    rcases hmem x hx with rfl | hx
    · rfl
    · exact h.key x hx
  case holds =>
    intro x hx
    rcases hmem x hx with rfl | hx
    · rwa [update_self]
    · rw [update_of_ne (hid x hx)]
      exact h.holds x hx
  case apart =>
    obtain ⟨hxs, hys, hcross⟩ := pairwise_append.mp h.apart
    refine pairwise_append.mpr ⟨hxs, pairwise_cons.mpr ⟨fun y hy => ?_, hys⟩, ?_⟩
    · have := hsplit.above y hy
      have := hapart y (mem_append_right _ hy)
      dsimp only
      omega
    · intro x hx y hy
      rcases mem_cons.mp hy with rfl | hy
      · have := hsplit.below x hx
        have := hapart x (mem_append_left _ hx)
        omega
      · exact hcross x hx y hy
  case distinct =>
    obtain ⟨hxs, hys, hcross⟩ := pairwise_append.mp h.distinct
    refine pairwise_append.mpr ⟨hxs, pairwise_cons.mpr ⟨fun y hy => ?_, hys⟩, ?_⟩
    · exact (hid y (mem_append_right _ hy)).symm
    · intro x hx y hy
      rcases mem_cons.mp hy with rfl | hy
      · exact hid x (mem_append_left _ hx)
      · exact hcross x hx y hy

end Laid

namespace Backed

variable {blocks xs ys : Blocks} {pieces : ℕ → List Piece} {key : ℕ} {node : Node} {a : Allocation}

theorem exists_piece (h : Backed blocks pieces a) (hlaid : Laid blocks pieces) :
    ∃ x ∈ blocks, x.2.id = a.owner ∧ ∃ u ∈ pieces x.2.id, u.free = false ∧
      a.phys = x.1 + u.start ∧ a.size = u.len ∧ 0 < u.len ∧
      u.start + u.len ≤ x.2.block.bitsSize := by
  obtain ⟨x, hx, hid, r, hr, hphys, hsize⟩ := h
  rw [← hid] at hr
  obtain ⟨u, hu, hused, rfl⟩ := mem_usedRanges.mp hr
  obtain ⟨hpos, hend⟩ := (hlaid.holds x hx).bounds hu
  exact ⟨x, hx, hid, u, hu, hused, hphys, hsize, hpos, hend⟩

theorem phys_ne_of_free (h : Backed blocks pieces a) (hlaid : Laid blocks pieces) (hx : x ∈ blocks)
    {p : Piece} (hp : p ∈ pieces x.2.id) (hfree : p.free = true) : a.phys ≠ x.1 + p.start := by
  intro heq
  obtain ⟨y, hy, -, u, hu, hused, hphys, -, hpos, hend⟩ := h.exists_piece hlaid
  obtain ⟨hpos', hend'⟩ := (hlaid.holds x hx).bounds hp
  obtain rfl := hlaid.eq_of_covers hx hy (q := a.phys) ⟨by omega, by omega⟩ ⟨by omega, by omega⟩
  have hsame := (hlaid.holds x hx).tiles.eq_of_start hp hu (by omega)
  rw [hsame, hused] at hfree
  cases hfree

theorem replace (h : Backed (xs ++ (key, node) :: ys) pieces a)
    (hlaid : Laid (xs ++ (key, node) :: ys) pieces)
    (hkeep : ∀ r ∈ usedRanges (pieces node.id), a.phys = key + r.1 → r ∈ usedRanges ps) :
    Backed (xs ++ (key, { node with block := b }) :: ys) (update pieces node.id ps) a := by
  obtain ⟨x, hx, hid, r, hr, hphys, hsize⟩ := h
  have hcases : x = (key, node) ∨ (x ∈ xs ∨ x ∈ ys) := by
    simp only [mem_append, mem_cons] at hx
    tauto
  rcases hcases with rfl | hother
  · dsimp only at hid
    rw [← hid] at hr
    refine ⟨(key, { node with block := b }), by simp, hid, r, ?_, hphys, hsize⟩
    rw [← hid, update_self]
    exact hkeep r hr hphys
  · have hne := hlaid.ne_id hother
    refine ⟨x, ?_, hid, r, ?_, hphys, hsize⟩
    · simp only [mem_append, mem_cons]
      tauto
    · rwa [← hid, update_of_ne hne, hid]

end Backed

/-! ### The loops -/

section Loops

variable {blocks xs ys : Blocks} {pieces : ℕ → List Piece} {key n : ℕ} {node : Node}

theorem allocateFrom_spec (hn : 0 < n) (h : ∀ x ∈ blocks, x.2.block.Holds (pieces x.2.id)) :
    (allocateFrom n blocks = .ok none ∧ NeedsBlock blocks n) ∨
    ∃ xs key node ys b phys, blocks = xs ++ (key, node) :: ys ∧ phys ≠ 0 ∧
      MemBlock.Allocation node.block (pieces node.id) n (b, phys) ∧
      allocateFrom n blocks =
        .ok (some (xs ++ (key, { node with block := b }) :: ys, phys, node.id)) := by
  induction blocks with
  | nil => exact .inl ⟨rfl, fun x hx => absurd hx not_mem_nil⟩
  | cons x blocks ih =>
    obtain ⟨key, node⟩ := x
    have hnode : node.block.Holds (pieces node.id) := h _ mem_cons_self
    obtain ⟨r, hallocate, hr⟩ := hnode.allocate hn
    rw [allocateFrom, hallocate]
    cases hr with
    | none hfull =>
      -- no room here, and the block is as before
      rcases ih fun x hx => h x (mem_cons_of_mem _ hx) with ⟨hrest, hneeds⟩ | hfound
      · refine .inl ⟨?_, forall_mem_cons.mpr ⟨hfull, hneeds⟩⟩
        simp [hrest]
      · obtain ⟨xs, key', node', ys, b, phys, rfl, hphys, hr, hrest⟩ := hfound
        refine .inr ⟨(key, node) :: xs, key', node', ys, b, phys, rfl, hphys, hr, ?_⟩
        simp [hrest]
    | @some xs ys p fsb rest hps hfree hlen hrest holds =>
      have hphys : node.block.physBase + p.start ≠ 0 := by
        have := hnode.placed.base_pos
        omega
      refine .inr ⟨[], key, node, blocks, _, _, rfl, hphys,
        .some fsb rest hps hfree hlen hrest holds, ?_⟩
      change (if _ ≠ 0 then _ else _) = _
      rw [if_pos hphys]
      rfl

theorem atBlock_eq {f : MemBlock → Checked MemBlock} (hxs : ∀ x ∈ xs, x.2.id ≠ node.id)
    (hf : f node.block = .ok b) : atBlock node.id f (xs ++ (key, node) :: ys) =
      .ok (xs ++ (key, { node with block := b }) :: ys, b) := by
  induction xs with
  | nil => rw [nil_append, atBlock, if_pos rfl, hf]; rfl
  | cons x xs ih =>
    rw [cons_append, atBlock, if_neg (hxs x mem_cons_self),
      ih fun y hy => hxs y (mem_cons_of_mem x hy)]
    rfl

theorem gcEmptyBlocks_sublist (allowedEmpty : ℕ) (blocks : Blocks) :
    (gcEmptyBlocks allowedEmpty blocks).Sublist blocks := by
  induction blocks generalizing allowedEmpty with
  | nil => exact .slnil
  | cons x blocks ih =>
    unfold gcEmptyBlocks
    split_ifs
    · cases allowedEmpty with
      | zero => exact (ih 0).cons _
      | succ allowedEmpty => exact (ih allowedEmpty).cons_cons _
    · exact (ih allowedEmpty).cons_cons _

theorem mem_gcEmptyBlocks (hx : x ∈ blocks) (hused : x.2.block.isAllFree = false)
    (allowedEmpty : ℕ) : x ∈ gcEmptyBlocks allowedEmpty blocks := by
  induction blocks generalizing allowedEmpty with
  | nil => exact absurd hx not_mem_nil
  | cons y blocks ih =>
    unfold gcEmptyBlocks
    rcases mem_cons.mp hx with rfl | hx
    · rw [if_neg (by simp [hused])]
      exact mem_cons_self
    split_ifs
    · cases allowedEmpty with
      | zero => exact ih hx 0
      | succ allowedEmpty => exact mem_cons_of_mem _ (ih hx allowedEmpty)
    · exact mem_cons_of_mem _ (ih hx allowedEmpty)

end Loops

/-! ### The invariant -/

/-- The blocks are laid out, every allocation is an allocated piece of its block, and no
address is allocated twice. -/
structure State.Inv (s : State) (pieces : ℕ → List Piece) : Prop where
  laid : Laid s.blocks pieces
  fresh : ∀ x ∈ s.blocks, x.2.id < s.nextId
  backed : ∀ c, ∀ a ∈ s.allocations c, Backed s.blocks pieces a
  single : ∀ c c' a a', a ∈ s.allocations c → a' ∈ s.allocations c' → a.phys = a'.phys →
    c = c' ∧ a = a'
  nodup : ∀ c, (s.allocations c).Pairwise fun a a' => a.phys ≠ a'.phys

variable {pieces' : ℕ → List Piece} {blocks xs ys : Blocks}

namespace State.Inv

variable {s : State} {pieces : ℕ → List Piece} {c : ℕ} {a : Allocation}

open State

theorem initial (pieces : ℕ → List Piece) : initial.Inv pieces := by
  refine ⟨⟨?_, ?_, .nil, .nil⟩, ?_, ?_, ?_, fun _ => .nil⟩
  all_goals simp [State.initial]

section

variable (h : s.Inv pieces)

include h

theorem add (hlaid : Laid blocks pieces') (hfresh : ∀ x ∈ blocks, x.2.id < nextId)
    (hkeep : ∀ c, ∀ a ∈ s.allocations c, Backed blocks pieces' a) (ha : Backed blocks pieces' a)
    (hnew : ∀ c, ∀ a' ∈ s.allocations c, a'.phys ≠ a.phys) (c : ℕ) :
    Inv ⟨blocks, nextId, update s.allocations c (a :: s.allocations c)⟩ pieces' := by
  have hmem : ∀ c' a', a' ∈ update s.allocations c (a :: s.allocations c) c' →
      (c' = c ∧ a' = a) ∨ a' ∈ s.allocations c' := by
    intro c' a' ha'
    rw [update_apply] at ha'
    split_ifs at ha' with hc
    · subst hc
      rcases mem_cons.mp ha' with rfl | ha'
      · exact .inl ⟨rfl, rfl⟩
      · exact .inr ha'
    · exact .inr ha'
  constructor
  case laid => exact hlaid
  case fresh => exact hfresh
  case backed =>
    intro c' a' ha'
    rcases hmem c' a' ha' with ⟨-, rfl⟩ | ha'
    · exact ha
    · exact hkeep c' a' ha'
  case single =>
    intro c1 c2 a1 a2 h1 h2 hphys
    rcases hmem c1 a1 h1 with ⟨hc1, ha1⟩ | hold1
    · rcases hmem c2 a2 h2 with ⟨hc2, ha2⟩ | hold2
      · exact ⟨hc1.trans hc2.symm, ha1.trans ha2.symm⟩
      · rw [ha1] at hphys
        exact absurd hphys.symm (hnew c2 a2 hold2)
    · rcases hmem c2 a2 h2 with ⟨-, ha2⟩ | hold2
      · rw [ha2] at hphys
        exact absurd hphys (hnew c1 a1 hold1)
      · exact h.single c1 c2 a1 a2 hold1 hold2 hphys
  case nodup =>
    intro c'
    dsimp only
    rw [update_apply]
    split_ifs with hc
    · exact pairwise_cons.mpr ⟨fun a' ha' => (hnew c a' ha').symm, h.nodup c⟩
    · exact h.nodup c'

theorem shrink {allocations : ℕ → List Allocation} (hlaid : Laid blocks pieces')
    (hfresh : ∀ x ∈ blocks, x.2.id < s.nextId)
    (hsub : ∀ c, (allocations c).Sublist (s.allocations c))
    (hkeep : ∀ c, ∀ a ∈ allocations c, Backed blocks pieces' a) :
    Inv ⟨blocks, s.nextId, allocations⟩ pieces' where
  laid := hlaid
  fresh := hfresh
  backed := hkeep
  single c c' a a' ha ha' := h.single c c' a a' ((hsub c).mem ha) ((hsub c').mem ha')
  nodup c := (h.nodup c).sublist (hsub c)

theorem fresh_replace {node : Node} (hblocks : s.blocks = xs ++ (key, node) :: ys) (b : MemBlock) :
    ∀ x ∈ xs ++ (key, ⟨node.id, b⟩) :: ys, x.2.id < s.nextId := by
  intro x hx
  have hold := h.fresh
  rw [hblocks] at hold
  simp only [mem_append, mem_cons] at hx hold
  rcases hx with hx | rfl | hx
  · exact hold x (.inl hx)
  · exact hold (key, node) (.inr (.inl rfl))
  · exact hold x (.inr (.inr hx))

theorem release (ha : a ∈ s.allocations c) :
    ∃ blocks b pieces', atBlock a.owner (·.unallocate a.phys a.size) s.blocks = .ok (blocks, b) ∧
      Inv ⟨blocks, s.nextId,
        update s.allocations c ((s.allocations c).filter (·.phys ≠ a.phys))⟩ pieces' := by
  obtain ⟨x, hx, hid, u, hu, hused, hphys, hsize, -⟩ := (h.backed c a ha).exists_piece h.laid
  obtain ⟨key, node⟩ := x
  obtain ⟨xs, ys, hblocks⟩ := append_of_mem hx
  have hlaid := h.laid
  rw [hblocks] at hlaid
  obtain ⟨us, vs, hpieces⟩ := append_of_mem hu
  have hholds := hlaid.holds (key, node) (by simp)
  have hkey := hlaid.key (key, node) (by simp)
  rw [hpieces] at hholds
  obtain ⟨fsb, zs, hunallocate, hzs, husedzs⟩ := hholds.unallocate hused
  refine ⟨xs ++ (key, ⟨node.id, { node.block with freeSubblocks := fsb }⟩) :: ys,
    { node.block with freeSubblocks := fsb }, update pieces node.id zs, ?_, ?_⟩
  · rw [hblocks, ← hid, hphys, hsize, hkey]
    exact atBlock_eq (fun x hx => hlaid.ne_id (.inl hx)) hunallocate
  · -- the other allocations of the block are other pieces
    have hkeep : ∀ c' a', a' ∈ s.allocations c' → a'.phys ≠ a.phys →
        Backed (xs ++ (key, ⟨node.id, { node.block with freeSubblocks := fsb }⟩) :: ys)
          (update pieces node.id zs) a' := by
      intro c' a' ha' hne
      have hbacked := h.backed c' a' ha'
      rw [hblocks] at hbacked
      apply hbacked.replace hlaid
      intro r hr hr'
      rw [hpieces, Piece.usedRanges_append, Piece.usedRanges_cons_used hused] at hr
      rw [husedzs]
      simp only [mem_append, mem_cons] at hr ⊢
      rcases hr with hr | rfl | hr
      · exact .inl hr
      · exact absurd (hr'.trans hphys.symm) hne
      · exact .inr hr
    have hmem : ∀ c' a', a' ∈ update s.allocations c
          ((s.allocations c).filter (·.phys ≠ a.phys)) c' →
        a' ∈ s.allocations c' ∧ a'.phys ≠ a.phys := by
      intro c' a' ha'
      rw [update_apply] at ha'
      split_ifs at ha' with hc
      · subst hc
        simpa using ha'
      · exact ⟨ha', fun hphys => hc (h.single c' c a' a ha' ha hphys).1⟩
    apply h.shrink (hlaid.replace hzs rfl rfl)
    · exact h.fresh_replace hblocks _
    · intro c'
      rw [update_apply]
      split_ifs with hc
      · subst hc
        exact filter_sublist
      · exact .refl _
    · exact fun c' a' ha' => hkeep c' a' (hmem c' a' ha').1 (hmem c' a' ha').2

theorem gc (allowedEmpty : ℕ) :
    Inv { s with blocks := gcEmptyBlocks allowedEmpty s.blocks } pieces := by
  have hsub := gcEmptyBlocks_sublist allowedEmpty s.blocks
  apply h.shrink (h.laid.sublist hsub) (fun x hx => h.fresh x (hsub.mem hx)) fun c => .refl _
  intro c a ha
  obtain ⟨x, hx, hid, r, hr, hphys, hsize⟩ := h.backed c a ha
  refine ⟨x, mem_gcEmptyBlocks hx ?_ allowedEmpty, hid, r, hr, hphys, hsize⟩
  rw [Bool.eq_false_iff]
  intro hall
  rw [(h.laid.holds x hx).isAllFree_iff, hid] at hall
  rw [hall] at hr
  exact not_mem_nil hr

theorem releaseAll {l : List Allocation} (hl : s.allocations c = l) :
    ∃ blocks pieces', releaseAll l s.blocks = .ok blocks ∧
      Inv ⟨blocks, s.nextId, update s.allocations c []⟩ pieces' := by
  induction l generalizing s pieces with
  | nil =>
    refine ⟨s.blocks, pieces, rfl, ?_⟩
    rw [← hl, update_eq_self]
    exact h
  | cons a l ih =>
    have ha : a ∈ s.allocations c := by
      rw [hl]
      exact mem_cons_self
    obtain ⟨blocks, b, pieces1, hat, hinv⟩ := h.release ha
    have hrest : (s.allocations c).filter (·.phys ≠ a.phys) = l := by
      have hnodup := h.nodup c
      rw [hl] at hnodup ⊢
      rw [filter_cons_of_neg (by simp)]
      apply filter_eq_self.mpr
      intro a' ha'
      simpa using ((pairwise_cons.mp hnodup).1 a' ha').symm
    rw [hrest] at hinv
    obtain ⟨blocks', pieces', hall, hinv'⟩ := ih hinv (update_self ..)
    rw [update_idem] at hinv'
    refine ⟨blocks', pieces', ?_, hinv'⟩
    rw [releaseAll, hat]
    exact hall

end

end State.Inv

theorem State.populatePhysAddr_eq {s : State} {host : Host}
    (info : PingInfo) (hnew : ∀ a ∈ s.allocations c, a.phys ≠ physAddr) :
    s.populatePhysAddr host c info physAddr n owner = .ok (
      { s with allocations :=
          update s.allocations c (⟨physAddr, n, owner⟩ :: s.allocations c) },
      ⟨0, n, subNat 64 physAddr host.physAddrStart⟩) := by
  rw [populatePhysAddr]
  simpa using hnew

/-! ### Allocation -/

section Allocate

variable {s : State} {pieces : ℕ → List Piece} {host : Host} {n : ℕ}

theorem State.Inv.add_found (h : s.Inv pieces) {node : Node}
    (hblocks : s.blocks = xs ++ (key, node) :: ys) (hphys : phys ≠ 0)
    (hr : MemBlock.Allocation node.block (pieces node.id) n (b, phys)) (c : ℕ) :
    (∀ c', ∀ a ∈ s.allocations c', a.phys ≠ phys) ∧
    ∃ pieces', State.Inv ⟨xs ++ (key, { node with block := b }) :: ys, s.nextId,
      update s.allocations c (⟨phys, n, node.id⟩ :: s.allocations c)⟩ pieces' := by
  have hlaid := h.laid
  rw [hblocks] at hlaid
  have hkey : key = node.block.physBase := hlaid.key (key, node) (by simp)
  cases hr with
  | none hfull => exact absurd rfl hphys
  | @some us vs p fsb rest hps hfree hlen hrest holds =>
    have hnew : ∀ c', ∀ a ∈ s.allocations c', a.phys ≠ node.block.physBase + p.start := by
      intro c' a ha
      have hbacked := h.backed c' a ha
      rw [hblocks] at hbacked
      rw [← hkey]
      exact hbacked.phys_ne_of_free hlaid (x := (key, node)) (by simp) (by simp [hps]) hfree
    refine ⟨hnew, _, h.add (hlaid.replace holds rfl rfl) ?_ ?_ ?_ hnew c⟩
    · exact h.fresh_replace hblocks _
    · intro c' a ha
      have hbacked := h.backed c' a ha
      rw [hblocks] at hbacked
      apply hbacked.replace hlaid
      -- what was allocated stays so
      intro r hr _
      rw [hps, Piece.usedRanges_append, usedRanges_cons_free hfree] at hr
      rw [Piece.usedRanges_append, Piece.usedRanges_cons_used rfl, Piece.usedRanges_append]
      simp only [mem_append, mem_cons] at hr ⊢
      tauto
    · refine ⟨(key, ⟨node.id, { node.block with freeSubblocks := fsb }⟩), by simp, rfl,
        (p.start, n), ?_, by rw [hkey], rfl⟩
      rw [update_self, Piece.usedRanges_append, Piece.usedRanges_cons_used rfl]
      simp [Piece.range]

theorem State.Inv.add_new (h : s.Inv pieces) {p : Piece} (hb : b.Holds ps) (hp : p ∈ ps)
    (hused : p.free = false)
    (hapart : ∀ x ∈ s.blocks, b.physBase + b.bitsSize ≤ x.1 ∨ x.1 + x.2.block.bitsSize ≤ b.physBase)
    (c : ℕ) : (∀ c', ∀ a ∈ s.allocations c', a.phys ≠ b.physBase + p.start) ∧
    ∃ blocks pieces', insert s.blocks b.physBase ⟨s.nextId, b⟩ = some blocks ∧
      State.Inv ⟨blocks, s.nextId + 1, update s.allocations c
        (⟨b.physBase + p.start, p.len, s.nextId⟩ :: s.allocations c)⟩ pieces' := by
  obtain ⟨hpos, hend⟩ := hb.bounds hp
  have hkeys : ∀ x ∈ s.blocks, x.1 ≠ b.physBase := by
    intro x hx
    have := (h.laid.holds x hx).placed.size_pos
    have := hapart x hx
    omega
  have hnew : ∀ c', ∀ a ∈ s.allocations c', a.phys ≠ b.physBase + p.start := by
    intro c' a ha
    obtain ⟨x, hx, -, u, -, -, hphys, -, hpos', hend'⟩ := (h.backed c' a ha).exists_piece h.laid
    have := hapart x hx
    omega
  obtain ⟨xs, ys, hblocks, hsplit⟩ := exists_split h.laid.sorted hkeys
  have hlaid := h.laid
  have hfresh := h.fresh
  rw [hblocks] at hlaid hfresh hapart
  have hmem : ∀ x ∈ xs ++ (b.physBase, ⟨s.nextId, b⟩) :: ys,
      x = (b.physBase, ⟨s.nextId, b⟩) ∨ x ∈ xs ++ ys := by
    intro x hx
    simp only [mem_append, mem_cons] at hx ⊢
    tauto
  refine ⟨hnew, xs ++ (b.physBase, ⟨s.nextId, b⟩) :: ys, update pieces s.nextId ps, ?_, ?_⟩
  · rw [hblocks]
    exact insert_of_split hsplit _
  · apply h.add (hlaid.insert hsplit hb (fun x hx => (hfresh x hx).ne) hapart)
    · intro x hx
      rcases hmem x hx with rfl | hx
      · exact Nat.lt_succ_self _
      · exact (hfresh x hx).trans (Nat.lt_succ_self _)
    · intro c' a ha
      obtain ⟨x, hx, hid, r, hr, hphys, hsize⟩ := h.backed c' a ha
      have hlt := h.fresh x hx
      rw [hblocks] at hx
      refine ⟨x, ?_, hid, r, ?_, hphys, hsize⟩
      · simp only [mem_append, mem_cons] at hx ⊢
        tauto
      · rwa [update_of_ne (by omega)]
    · refine ⟨(b.physBase, ⟨s.nextId, b⟩), by simp, rfl, p.range, ?_, rfl, rfl⟩
      rw [update_self]
      exact mem_usedRanges.mpr ⟨p, hp, hused, rfl⟩
    · exact hnew

theorem State.Inv.allocate (h : s.Inv pieces) {info : PingInfo}
    (hn : alignedSize info.size host.guestPageSize = n) (hpos : 0 < n)
    (hgrants : NeedsBlock s.blocks n → Grants s.blocks host (newBlockSize n)) :
    ∃ s' pieces' phys owner, s.allocate host c info =
        .ok (s', ⟨0, n, subNat 64 phys host.physAddrStart⟩) ∧
      s'.Inv pieces' ∧ ⟨phys, n, owner⟩ ∈ s'.allocations c := by
  have hmem : ∀ a : Allocation, a ∈ update s.allocations c (a :: s.allocations c) c := by
    intro a
    rw [update_self]
    exact mem_cons_self
  unfold State.allocate
  rw [hn]
  dsimp only
  rcases allocateFrom_spec hpos h.laid.holds with ⟨hnone, hneeds⟩ | hfound
  · have hgrant := hgrants hneeds
    have hlt : n < 2 ^ 32 := hn ▸ wrapNat_lt 32 _
    obtain ⟨r, hallocate, hr⟩ := (MemBlock.Holds.create (hgrant.placed hlt) rfl).allocate hpos
    rw [hnone]
    simp only [Checked.ok_bind, hgrant.new_eq, hallocate]
    cases hr with
    | none hfull =>
      -- the new block is large enough
      have := hfull (0, newBlockSize n) mem_cons_self
      exact absurd this (not_lt.mpr (le_max_left _ _))
    | @some us vs p fsb rest hps hfree hlen hrest holds =>
      have hne : ¬ allocateAddressSpaceBlock host + p.start = 0 := by
        have := hgrant.base_pos
        omega
      obtain ⟨hnew, blocks, pieces', hinsert, hinv⟩ :=
        h.add_new holds (p := ⟨p.start, n, false⟩) (by simp) rfl hgrant.apart c
      refine ⟨_, pieces', _, s.nextId, ?_, hinv, hmem _⟩
      refine (if_neg hne).trans ?_
      rw [hinsert]
      exact State.populatePhysAddr_eq info (hnew c)
  · obtain ⟨xs, key, node, ys, b, phys, hblocks, hphys, hr, hfrom⟩ := hfound
    obtain ⟨hnew, pieces', hinv⟩ := h.add_found hblocks hphys hr c
    rw [hfrom]
    refine ⟨_, pieces', phys, node.id, ?_, hinv, hmem _⟩
    exact State.populatePhysAddr_eq info (hnew c)

end Allocate

/-! ### Runs -/

namespace State

variable {s : State} {pieces : ℕ → List Piece}

/-- What is right about the contexts: every allocation points to a block that is there and a range
of it that is not free, ranges of different allocations are disjoint, and a proper request that
reports success has got an allocation of at least its size. -/
structure Sound (s : State) : Prop where
  live : ∀ c, ∀ a ∈ s.allocations c, ∃ x ∈ s.blocks, x.2.id = a.owner ∧ x.1 ≤ a.phys ∧
    a.phys + a.size ≤ x.1 + x.2.block.bitsSize ∧
    ∀ r ∈ x.2.block.freeSubblocks, a.phys + a.size ≤ x.1 + r.1 ∨ x.1 + r.1 + r.2 ≤ a.phys
  disjoint : ∀ c c' a a', a ∈ s.allocations c → a' ∈ s.allocations c' → (c, a) ≠ (c', a') →
    a.phys + a.size ≤ a'.phys ∨ a'.phys + a'.size ≤ a.phys
  served : ∀ host c info, wrapNat 32 info.metadata = 1 → Proper s (.ping host c info) →
    ∃ s' info', s.perform host c info = .ok (s', info') ∧ (info'.metadata = 0 →
      info.size ≤ info'.size ∧ ∃ a ∈ s'.allocations c, a.size = info'.size ∧
        info'.physAddr = subNat 64 a.phys host.physAddrStart)

theorem step_inv (s : State) (op : Op) (h : ∃ pieces, s.Inv pieces) (hop : Proper s op) :
    (s.step op).Ensures (fun p => ∃ pieces, p.1.Inv pieces) fun _ => False := by
  obtain ⟨pieces, h⟩ := h
  cases op with
  | ping host c info =>
    rw [step]
    unfold perform
    split
    next hcommand =>
      obtain ⟨hpos, -, hgrants⟩ := hop hcommand
      obtain ⟨s', pieces', phys, owner, hallocate, hinv, -⟩ := h.allocate rfl hpos hgrants
      rw [hallocate]
      exact ⟨pieces', hinv⟩
    next =>
      unfold unallocate
      cases hfind : (s.allocations c).find? (·.phys = info.physAddr) with
      | none => exact ⟨pieces, h⟩
      | some a =>
        have hphys : a.phys = info.physAddr := by simpa using find?_some hfind
        obtain ⟨blocks, b, pieces', hat, hinv⟩ := h.release (mem_of_find?_eq_some hfind)
        simp only [← hphys, hat, Checked.ok_bind]
        refine ⟨pieces', ?_⟩
        split_ifs
        · exact hinv.gc 1
        · exact hinv
    next => exact ⟨pieces, h⟩
    next => exact ⟨pieces, h⟩
  | destroy c =>
    obtain ⟨blocks, pieces', hall, hinv⟩ := h.releaseAll (c := c) rfl
    rw [step, clear, hall]
    exact ⟨pieces', hinv⟩

theorem Inv.sound (h : s.Inv pieces) : s.Sound := by
  constructor
  case live =>
    intro c a ha
    obtain ⟨x, hx, hid, u, hu, hused, hphys, hsize, hpos, hend⟩ :=
      (h.backed c a ha).exists_piece h.laid
    refine ⟨x, hx, hid, by omega, by omega, fun r hr => ?_⟩
    have hholds := h.laid.holds x hx
    rw [hholds.free] at hr
    obtain ⟨p, hp, hfree, rfl⟩ := mem_freeRanges.mp hr
    have hne : u ≠ p := by
      rintro rfl
      rw [hused] at hfree
      cases hfree
    have := hholds.tiles.apart hu hp hne
    rw [Piece.range]
    omega
  case disjoint =>
    intro c c' a a' ha ha' hne
    have hphys : a.phys ≠ a'.phys := by
      intro heq
      obtain ⟨rfl, rfl⟩ := h.single c c' a a' ha ha' heq
      exact hne rfl
    obtain ⟨x, hx, -, u, hu, -, hu1, hu2, hpos, hend⟩ := (h.backed c a ha).exists_piece h.laid
    obtain ⟨y, hy, -, v, hv, -, hv1, hv2, hpos', hend'⟩ := (h.backed c' a' ha').exists_piece h.laid
    by_contra hover
    -- ranges that overlap are in one block, and there in one piece
    have hq : max a.phys a'.phys < a.phys + a.size ∧ max a.phys a'.phys < a'.phys + a'.size := by
      omega
    obtain rfl := h.laid.eq_of_covers hx hy (q := max a.phys a'.phys) ⟨by omega, by omega⟩
      ⟨by omega, by omega⟩
    have huv : u ≠ v := by
      rintro rfl
      omega
    have := (h.laid.holds x hx).tiles.apart hu hv huv
    omega
  case served =>
    intro host c info hcommand hproper
    obtain ⟨hpos, hle, hgrants⟩ := hproper hcommand
    obtain ⟨s', pieces', phys, owner, hallocate, -, hmem⟩ := h.allocate rfl hpos hgrants
    refine ⟨s', ⟨0, _, subNat 64 phys host.physAddrStart⟩, ?_, fun _ => ⟨hle, _, hmem, rfl, rfl⟩⟩
    rw [perform, hcommand]
    exact hallocate

/-- **Contexts.** In every run of proper steps, of any number of contexts, the program does not
end, and in every state reached the allocations of all contexts are right. -/
theorem contexts_sound (ops : List Op) (h : Meets step Proper initial ops) :
    (run step initial ops).2.Ensures Sound fun _ => False := by
  have hinv : ∃ pieces, initial.Inv pieces := ⟨fun _ => [], .initial _⟩
  exact (run_invariant step_inv ops _ hinv h).mono fun _ ⟨_, hinv⟩ => hinv.sound

/-- A host with pages of 4096 bytes that gives a region at an offset. -/
def hostAt (offset : ℕ) : Host := ⟨4096, 0x800000000, some offset, true, fun _ => 0⟩

/-- Two contexts, two blocks, a block that is destroyed and a context that ends. -/
def twoContexts : List Op :=
  [.ping (hostAt 0) 0 ⟨1, 5000, 0⟩, .ping (hostAt 0x4000000) 1 ⟨1, 0x4000000, 0⟩,
    .ping (hostAt 0) 1 ⟨0x100000001, 1, 0⟩, .ping (hostAt 0) 1 ⟨2, 0, 0x804000000⟩, .destroy 0,
    .destroy 1]

theorem contexts_sound_example :
    (run step initial twoContexts).1 = [some ⟨0, 8192, 0⟩, some ⟨0, 0x4000000, 0x4000000⟩,
        some ⟨0, 4096, 8192⟩, some ⟨0, 0, 0x804000000⟩, none, none] ∧
      (run step initial twoContexts).2.Ensures Sound fun _ => False := by
  refine ⟨by decide +kernel, contexts_sound twoContexts ?_⟩
  decide +kernel

/-- Two requests of size zero get the same address, and the second ends the program. And a
request of more than 32 bits reports success with the rest of its size. -/
theorem sizes_are_truncated :
    (run step initial [.ping (hostAt 0) 0 ⟨1, 0, 0⟩, .ping (hostAt 0) 0 ⟨1, 0, 0⟩]).2.Ensures
      (fun _ => False) (· = .exit) ∧
    (run step initial [.ping (hostAt 0) 0 ⟨1, 0x100001000, 0⟩]).1 = [some ⟨0, 4096, 0⟩] := by
  decide +kernel

end State

end AndroidEmu.SharedSlots
