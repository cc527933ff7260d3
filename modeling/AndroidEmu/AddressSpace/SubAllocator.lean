import AndroidEmu.AddressSpace.Refinement
import AndroidEmu.CS.ByteStream

/-!
# The sub-allocator

`aemu/base/SubAllocator.cpp`. A pointer is an offset from the start of the buffer, `none` the null
pointer; the range check that only prints a message is left out. `load` starts over with an array of
32 blocks and then reads as many blocks as the stream says.
-/

namespace AndroidEmu.AddressSpace

open CS AddressSpaceAllocator

/-! ### Blocks in a stream -/

namespace AddressBlock

/-- The `size_available` view of a block: the availability bit is the highest. -/
def sizeAvailable (b : AddressBlock) : ℕ := b.size + if b.available then 2 ^ 63 else 0

/-- The block with the given `offset` and `size_available`. -/
def ofSizeAvailable (offset sizeAvailable : ℕ) : AddressBlock :=
  .ofFields offset sizeAvailable (2 ^ 63 ≤ wrapNat 64 sizeAvailable)

def put (b : AddressBlock) : Bytes := putBe 8 b.offset ++ putBe 8 b.sizeAvailable

def get (bs : Bytes) : AddressBlock × Bytes :=
  let offset := getBe 8 bs
  let sizeAvailable := getBe 8 offset.2
  (ofSizeAvailable offset.1 sizeAvailable.1, sizeAvailable.2)

theorem sizeAvailable_lt (b : AddressBlock) : b.sizeAvailable < 2 ^ 64 := by
  have := b.size_lt
  unfold sizeAvailable
  split_ifs <;> omega

theorem ofSizeAvailable_sizeAvailable (b : AddressBlock) :
    ofSizeAvailable b.offset b.sizeAvailable = b := by
  have hoff := b.offset_lt
  have hsize := b.size_lt
  have hav : decide (2 ^ 63 ≤ wrapNat 64 b.sizeAvailable) = b.available := by
    rw [wrapNat_of_lt b.sizeAvailable_lt]
    cases hb : b.available with
    | true => simp [sizeAvailable, hb]
    | false => simpa [sizeAvailable, hb] using hsize
  have hlow : wrapNat 63 b.sizeAvailable = b.size := by
    unfold wrapNat sizeAvailable
    split_ifs <;> omega
  unfold ofSizeAvailable ofFields
  cases b
  simp only [AddressBlock.mk.injEq]
  exact ⟨wrapNat_of_lt hoff, hlow, hav⟩

theorem get_put (b : AddressBlock) (rest : Bytes) : get (b.put ++ rest) = (b, rest) := by
  have hoff : b.offset < 256 ^ 8 := lt_pow_bytes b.offset_lt
  have hsize : b.sizeAvailable < 256 ^ 8 := lt_pow_bytes b.sizeAvailable_lt
  unfold get put
  rw [List.append_assoc]
  simp only [getBe_putBe 8 hoff, getBe_putBe 8 hsize, ofSizeAvailable_sizeAvailable]

end AddressBlock

/-! ### The state and its interface -/

/-- The fields of `SubAllocator::Impl` that its results depend on. -/
structure SubAllocator where
  addrAlloc : AddressSpaceAllocator
  totalSize : ℕ
  pageSize : ℕ
  allocCount : ℕ
  deriving DecidableEq

/-- The number of blocks the array starts with. -/
def initialCapacity : ℤ := 32

inductive SubOp
  | alloc (heap : Heap) (wantedSize : ℕ)
  | allocFixed (heap : Heap) (wantedSize offset : ℕ)
  | free (ptr : Option ℕ)
  | freeAll

inductive SubReply
  | pointer (ptr : Option ℕ)
  | freed (success : Bool)
  | done
  deriving DecidableEq

namespace SubAllocator

/-- The constructor of `SubAllocator`. -/
def construct (heap : Heap) (totalSize pageSize : ℕ) : Checked SubAllocator := do
  let addrAlloc ← AddressSpaceAllocator.init heap (wrapNat 64 totalSize) initialCapacity
  return {
    addrAlloc
    totalSize := wrapNat 64 totalSize
    pageSize := wrapNat 64 pageSize
    allocCount := 0 }

/-- The wanted size rounded up to pages, in 64-bit arithmetic. -/
def toPageSize (pageSize wantedSize : ℕ) : Checked ℕ :=
  if pageSize = 0 then .error .divideByZero
  else .ok (wrapNat 64 (pageSize * (subNat 64 (wrapNat 64 (wantedSize + pageSize)) 1 / pageSize)))

/-- `SubAllocator::alloc`. -/
def alloc (heap : Heap) (s : SubAllocator) (wantedSize : ℕ) : Checked (SubAllocator × Option ℕ) :=
  if wantedSize = 0 then .ok (s, none)
  else do
    let size ← toPageSize s.pageSize wantedSize
    let (addrAlloc, offset) ← s.addrAlloc.allocate heap size
    if offset = badOffset then return ({ s with addrAlloc }, none)
    else return ({ s with addrAlloc, allocCount := wrapNat 32 (s.allocCount + 1) }, some offset)

/-- `SubAllocator::allocFixed`. -/
def allocFixed (heap : Heap) (s : SubAllocator) (wantedSize offset : ℕ) :
    Checked (SubAllocator × Option ℕ) :=
  if wantedSize = 0 then .ok (s, none)
  else do
    let size ← toPageSize s.pageSize wantedSize
    let (addrAlloc, r) ← s.addrAlloc.allocateFixed heap size offset
    if r ≠ 0 then return ({ s with addrAlloc }, none)
    else return ({ s with addrAlloc, allocCount := wrapNat 32 (s.allocCount + 1) }, some offset)

/-- `SubAllocator::free`. -/
def free (s : SubAllocator) : Option ℕ → Checked (SubAllocator × Bool)
  | none => .ok (s, false)
  | some offset => do
    let (addrAlloc, r) ← s.addrAlloc.deallocate offset
    if r = EINVAL then return ({ s with addrAlloc }, false)
    else return ({ s with addrAlloc, allocCount := subNat 32 s.allocCount 1 }, true)

/-- `SubAllocator::freeAll`. -/
def freeAll (s : SubAllocator) : Checked SubAllocator := do
  let addrAlloc ← s.addrAlloc.reset
  return { s with addrAlloc, allocCount := 0 }

def step (s : SubAllocator) : SubOp → Checked (SubAllocator × SubReply)
  | .alloc heap wantedSize => do
    let (s, ptr) ← s.alloc heap wantedSize
    return (s, .pointer ptr)
  | .allocFixed heap wantedSize offset => do
    let (s, ptr) ← s.allocFixed heap wantedSize offset
    return (s, .pointer ptr)
  | .free ptr => do
    let (s, success) ← s.free ptr
    return (s, .freed success)
  | .freeAll => do
    let s ← s.freeAll
    return (s, .done)

/-- The states a client can produce. -/
def Reachable (s : SubAllocator) : Prop :=
  ∃ heap totalSize pageSize s0 ops, construct heap totalSize pageSize = .ok s0 ∧
    (run step s0 ops).2 = .ok s

/-! ### Snapshots -/

/-- The block loop of `address_space_allocator_run` when saving, from index `i`. -/
def saveBlocks (blocks : List AddressBlock) : ℕ → ℕ → Checked Bytes
  | 0, _ => .ok []
  | n + 1, i => do
    let b ← readAt blocks i
    let rest ← saveBlocks blocks n (i + 1)
    return b.put ++ rest

/-- `SubAllocator::save`. -/
def save (s : SubAllocator) : Checked Bytes := do
  let a := s.addrAlloc
  check (1 ≤ a.size)
  let blocks ← saveBlocks a.blocks a.size 0
  return putBe 4 a.size ++ putBe 4 (a.capacity % 2 ^ 32).toNat ++ putBe 8 a.totalBytes ++ blocks ++
    putBe 8 s.pageSize ++ putBe 8 s.totalSize ++ putBe 4 s.allocCount

/-- The block loop of `address_space_allocator_run` when loading, from index `i`. -/
def loadBlocks : ℕ → ℕ → List AddressBlock → Bytes → Checked (List AddressBlock × Bytes)
  | 0, _, blocks, bs => .ok (blocks, bs)
  | n + 1, i, blocks, bs => do
    let block := AddressBlock.get bs
    let blocks ← writeAt blocks i block.1
    loadBlocks n (i + 1) blocks block.2

/-- `SubAllocator::load`; the rest of the stream is returned. -/
def load (heap : Heap) (s : SubAllocator) (bs : Bytes) : Checked (SubAllocator × Bytes) := do
  -- `clear` allocates a new array for the old total size
  let a ← AddressSpaceAllocator.init heap s.totalSize initialCapacity
  let size := getBe 4 bs
  let capacity := getBe 4 size.2
  let totalBytes := getBe 8 capacity.2
  check (1 ≤ wrapInt size.1)
  let (blocks, bs) ← loadBlocks (wrapInt size.1).toNat 0 a.blocks totalBytes.2
  let pageSize := getBe 8 bs
  let totalSize := getBe 8 pageSize.2
  let allocCount := getBe 4 totalSize.2
  let addrAlloc : AddressSpaceAllocator := {
    blocks
    size := (wrapInt size.1).toNat
    capacity := wrapInt capacity.1
    totalBytes := totalBytes.1 }
  return ({
    addrAlloc
    totalSize := totalSize.1
    pageSize := pageSize.1
    allocCount := allocCount.1 }, allocCount.2)

end SubAllocator

end AndroidEmu.AddressSpace
