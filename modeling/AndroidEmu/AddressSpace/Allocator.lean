import AndroidEmu.CS.Memory

/-!
# The address space allocator

`aemu/base/address_space.h` keeps the blocks of a range of addresses in one heap array. The array is
the list of all its allocated entries, whether below `size` or not, so that a write past it is
visible even when the `capacity` field claims more. Pointers to blocks are indices.
-/

namespace AndroidEmu.AddressSpace

open CS

/-- An offset, a 63-bit size and an availability bit. -/
structure AddressBlock where
  offset : ℕ
  size : ℕ
  available : Bool
  offset_lt : offset < 2 ^ 64
  size_lt : size < 2 ^ 63
  deriving DecidableEq

namespace AddressBlock

/-- Assigning to the fields of a block keeps the bits that fit. -/
def ofFields (offset size : ℕ) (available : Bool) : AddressBlock where
  offset := wrapNat 64 offset
  size := wrapNat 63 size
  available := available
  offset_lt := wrapNat_lt 64 offset
  size_lt := wrapNat_lt 63 size

def withSize (b : AddressBlock) (size : ℕ) : AddressBlock :=
  { b with size := wrapNat 63 size, size_lt := wrapNat_lt 63 size }

def withAvailable (b : AddressBlock) (available : Bool) : AddressBlock :=
  { b with available := available }

variable (b : AddressBlock) (offset size : ℕ) (available : Bool)

@[simp] theorem ofFields_offset : (ofFields offset size available).offset = wrapNat 64 offset := rfl
@[simp] theorem ofFields_size : (ofFields offset size available).size = wrapNat 63 size := rfl
@[simp] theorem ofFields_available : (ofFields offset size available).available = available := rfl
@[simp] theorem withSize_offset : (b.withSize size).offset = b.offset := rfl
@[simp] theorem withSize_size : (b.withSize size).size = wrapNat 63 size := rfl
@[simp] theorem withSize_available : (b.withSize size).available = b.available := rfl
@[simp] theorem withAvailable_offset : (b.withAvailable available).offset = b.offset := rfl
@[simp] theorem withAvailable_size : (b.withAvailable available).size = b.size := rfl
@[simp] theorem withAvailable_available : (b.withAvailable available).available = available := rfl

end AddressBlock

/-- The list holds every entry of the heap array behind `blocks`, the entries from `size` on being
unused. -/
structure AddressSpaceAllocator where
  blocks : List AddressBlock
  size : ℕ
  capacity : ℤ
  totalBytes : ℕ
  deriving DecidableEq

def AddressSpaceAllocator.inUse (a : AddressSpaceAllocator) : List AddressBlock :=
  a.blocks.take a.size

def badOffset : ℕ := 2 ^ 64 - 1

def EINVAL : ℕ := 22

/-- The bytes asked for by `sizeof(struct address_block) * capacity`, a `size_t`. -/
def arrayBytes (capacity : ℤ) : ℕ := ((16 * capacity) % 2 ^ 64).toNat

namespace AddressSpaceAllocator

/-! ### Searching the array

The loops of the source advance a pointer and count down the blocks that are left;
a pointer that runs off the array stops the run. -/

/-- One pass of `address_space_allocator_find_available_block`, with the best index
and its size so far. -/
def findAvailableLoop (sizeAtLeast : ℕ) :
    List AddressBlock → ℕ → ℕ → Option (ℕ × ℕ) → Checked (Option ℕ)
  | _, 0, _, best => .ok (best.map Prod.fst)
  | [], _ + 1, _, _ => .error .outOfBounds
  | block :: blocks, n + 1, i, best => do
    check (0 < block.size)
    let better : Bool := match best with
      | none => true
      | some (_, sizeAtIndex) => block.size < sizeAtIndex
    if sizeAtLeast ≤ block.size ∧ block.available ∧ better then
      findAvailableLoop sizeAtLeast blocks n (i + 1) (some (i, block.size))
    else
      findAvailableLoop sizeAtLeast blocks n (i + 1) best

/-- The smallest available block of at least the given size, the first of several; `none` stands for
`-1`. -/
def findAvailableBlock (blocks : List AddressBlock) (nBlocks sizeAtLeast : ℕ) :
    Checked (Option ℕ) := do
  check (1 ≤ nBlocks)
  findAvailableLoop sizeAtLeast blocks nBlocks 0 none

/-- One pass of `address_space_allocator_find_available_block_at_offset`. -/
def findAvailableAtOffsetLoop (sizeAtLeast offset : ℕ) :
    List AddressBlock → ℕ → ℕ → Checked (Option ℕ)
  | _, 0, _ => .ok none
  | [], _ + 1, _ => .error .outOfBounds
  | block :: blocks, n + 1, i =>
    if block.size = 0 then .ok none
    else if sizeAtLeast ≤ block.size ∧ block.available ∧ block.offset ≤ offset ∧
        offset < wrapNat 64 (block.offset + block.size) then .ok (some i)
    else findAvailableAtOffsetLoop sizeAtLeast offset blocks n (i + 1)

/-- The first available block of at least the given size that contains the offset. -/
def findAvailableBlockAtOffset (blocks : List AddressBlock) (nBlocks sizeAtLeast offset : ℕ) :
    Checked (Option ℕ) :=
  if nBlocks = 0 then .ok none
  else findAvailableAtOffsetLoop sizeAtLeast offset blocks nBlocks 0

/-! ### Growing and splitting -/

/-- `address_space_allocator_grow_capacity`. -/
def growCapacity (oldCapacity : ℤ) : Checked ℤ := do
  check (1 ≤ oldCapacity)
  return wrapInt (oldCapacity + oldCapacity)

/-- `address_space_realloc` of the array to a new capacity: old entries are kept as
far as they fit, new ones are unused. -/
def reallocBlocks (heap : Heap) (blocks : List AddressBlock) (capacity : ℤ) :
    Checked (List AddressBlock) :=
  if heap.grants (arrayBytes capacity) then
    .ok (blocks.take capacity.toNat ++
      List.replicate (capacity.toNat - blocks.length) (.ofFields 0 0 false))
  else .error .outOfMemory

/-- The growth step shared by the two splitting functions: double `base` and
reallocate. -/
def grow (heap : Heap) (a : AddressSpaceAllocator) (base : ℤ) : Checked AddressSpaceAllocator := do
  let newCapacity ← growCapacity base
  let blocks ← reallocBlocks heap a.blocks newCapacity
  return { a with blocks, capacity := newCapacity }

/-- The last `size` bytes of block `i` become a block of their own, whose index is returned. -/
def splitBlock (heap : Heap) (a : AddressSpaceAllocator) (i size : ℕ) :
    Checked (AddressSpaceAllocator × ℕ) := do
  check (1 ≤ a.capacity)
  check (1 ≤ a.size)
  check ((a.size : ℤ) ≤ a.capacity)
  check (i < a.size)
  let old ← readAt a.blocks i
  check (size < old.size)
  let a ← (if (a.size : ℤ) = a.capacity then grow heap a a.capacity else pure a)
  let blocks ← memmove a.blocks (i + 2) (i + 1) (a.size - i - 1)
  let toBorrowFrom ← readAt blocks i
  let newSize := subNat 64 toBorrowFrom.size size
  let blocks ← writeAt blocks i (toBorrowFrom.withSize newSize)
  let blocks ← writeAt blocks (i + 1) (.ofFields (toBorrowFrom.offset + newSize) size true)
  return ({ a with blocks, size := a.size + 1 }, i + 1)

/-- The body of `address_space_allocator_split_block_at_offset`, with its recursive
call as a parameter. -/
def splitBlockAtOffsetWith
    (recur : AddressSpaceAllocator → ℕ → ℕ → ℕ → Checked (AddressSpaceAllocator × ℕ))
    (heap : Heap) (a : AddressSpaceAllocator) (i size offset : ℕ) :
    Checked (AddressSpaceAllocator × ℕ) := do
  check (1 ≤ a.capacity)
  check (1 ≤ a.size)
  check ((a.size : ℤ) ≤ a.capacity)
  check (i < a.size)
  let old ← readAt a.blocks i
  check (size < old.size)
  check (old.offset ≤ offset)
  if offset = old.offset then
    -- the current block is the result, after splitting off its tail
    if size < old.size then
      let (a, _) ← recur a i (subNat 64 old.size size) (wrapNat 64 (offset + size))
      return (a, i)
    else return (a, i)
  else
    let needExtraBlock : Bool :=
      subNat 64 (subNat 64 old.size size) (subNat 64 offset old.offset) ≠ 0
    let newBlockIndexOffset : ℕ := if needExtraBlock then 1 else 0
    let a ← (if a.capacity ≤ ((a.size + newBlockIndexOffset : ℕ) : ℤ) then
        grow heap a (wrapInt (a.capacity + newBlockIndexOffset))
      else pure a)
    let blocks ← memmove a.blocks (i + 2 + newBlockIndexOffset) (i + 1) (a.size - i - 1)
    let toBorrowFrom ← readAt blocks i
    let borrowed := toBorrowFrom.withSize (subNat 64 offset toBorrowFrom.offset)
    let blocks ← writeAt blocks i borrowed
    let blocks ← writeAt blocks (i + 1) (.ofFields offset size true)
    if needExtraBlock then
      let extraSize := subNat 64 (subNat 64 toBorrowFrom.size size) borrowed.size
      let blocks ← writeAt blocks (i + 2) (.ofFields (offset + size) extraSize true)
      return ({ a with blocks, size := a.size + 2 }, i + 1)
    else return ({ a with blocks, size := a.size + 1 }, i + 1)

/-- The `size` bytes at `offset` become a block of their own, whose index is returned. The recursion
is one level deep; see `splitBlockAtOffset_eq`. -/
def splitBlockAtOffset (heap : Heap) : AddressSpaceAllocator → ℕ → ℕ → ℕ →
    Checked (AddressSpaceAllocator × ℕ) :=
  splitBlockAtOffsetWith (splitBlockAtOffsetWith (fun _ _ _ _ => .error .assertion) heap) heap

/-! ### Releasing -/

/-- Whether the entry at `i` is available, an index outside the blocks in use
counting as not. -/
def availableAt (blocks : List AddressBlock) (i : ℕ) (inUse : Bool) : Checked Bool :=
  if inUse then do
    let block ← readAt blocks i
    return block.available
  else .ok false

/-- Mark block `i` available and merge it with its available neighbours. -/
def releaseBlock (a : AddressSpaceAllocator) (i : ℕ) : Checked AddressSpaceAllocator := do
  check (i < a.size)
  let block ← readAt a.blocks i
  let blocks ← writeAt a.blocks i (block.withAvailable true)
  let mergeBefore ← availableAt blocks (i - 1) (0 < i)
  let mergeAfter ← availableAt blocks (i + 1) (i + 1 < a.size)
  match mergeBefore, mergeAfter with
  | true, true =>
    -- merge (before, i, after) into before
    let before ← readAt blocks (i - 1)
    let block ← readAt blocks i
    let after ← readAt blocks (i + 1)
    let blocks ← writeAt blocks (i - 1) (before.withSize (before.size + (block.size + after.size)))
    let size := a.size - 2
    let blocks ← memmove blocks i (i + 2) (size - i)
    return { a with blocks, size }
  | true, false =>
    -- merge (before, i) into before
    let before ← readAt blocks (i - 1)
    let block ← readAt blocks i
    let blocks ← writeAt blocks (i - 1) (before.withSize (before.size + block.size))
    let size := a.size - 1
    let blocks ← memmove blocks i (i + 1) (size - i)
    return { a with blocks, size }
  | false, true =>
    -- merge (i, after) into i
    let block ← readAt blocks i
    let after ← readAt blocks (i + 1)
    let blocks ← writeAt blocks i (block.withSize (block.size + after.size))
    let size := a.size - 1
    let blocks ← memmove blocks (i + 1) (i + 2) (size - (i + 1))
    return { a with blocks, size }
  | false, false => return { a with blocks }

/-! ### The interface -/

/-- A zeroed array with one seed block. -/
def init (heap : Heap) (size : ℕ) (initialCapacity : ℤ) : Checked AddressSpaceAllocator := do
  check (1 ≤ initialCapacity)
  let blocks ← reallocBlocks heap [] initialCapacity
  let blocks ← writeAt blocks 0 (.ofFields 0 size true)
  return { blocks, size := 1, capacity := initialCapacity, totalBytes := wrapNat 64 size }

/-- Mark the block found for an allocation as taken. -/
def take (a : AddressSpaceAllocator) (i size : ℕ) : Checked (AddressSpaceAllocator × ℕ) := do
  let block ← readAt a.blocks i
  check (block.size = size)
  let blocks ← writeAt a.blocks i (block.withAvailable false)
  return ({ a with blocks }, block.offset)

/-- `address_space_allocator_allocate`. -/
def allocate (heap : Heap) (a : AddressSpaceAllocator) (size : ℕ) :
    Checked (AddressSpaceAllocator × ℕ) := do
  match ← findAvailableBlock a.blocks a.size size with
  | none => return (a, badOffset)
  | some i =>
    check (i < a.size)
    let block ← readAt a.blocks i
    check (size ≤ block.size)
    let (a, i) ← (if size < block.size then splitBlock heap a i size else pure (a, i))
    a.take i size

/-- `address_space_allocator_allocate_fixed`. -/
def allocateFixed (heap : Heap) (a : AddressSpaceAllocator) (size offset : ℕ) :
    Checked (AddressSpaceAllocator × ℤ) := do
  match ← findAvailableBlockAtOffset a.blocks a.size size offset with
  | none => return (a, -1)
  | some i =>
    check (i < a.size)
    let block ← readAt a.blocks i
    check (size ≤ block.size)
    let (a, i) ←
      (if size < block.size then splitBlockAtOffset heap a i size offset else pure (a, i))
    let (a, _) ← a.take i size
    return (a, 0)

/-- One pass of the loop of `address_space_allocator_deallocate`. -/
def deallocateLoop (a : AddressSpaceAllocator) (offset : ℕ) :
    List AddressBlock → ℕ → ℕ → Checked (AddressSpaceAllocator × ℕ)
  | _, 0, _ => .ok (a, EINVAL)
  | [], _ + 1, _ => .error .outOfBounds
  | block :: blocks, n + 1, i =>
    if block.offset = offset then
      if block.available then .ok (a, EINVAL)
      else do
        let a ← a.releaseBlock i
        return (a, 0)
    else deallocateLoop a offset blocks n (i + 1)

/-- `address_space_allocator_deallocate`. -/
def deallocate (a : AddressSpaceAllocator) (offset : ℕ) : Checked (AddressSpaceAllocator × ℕ) := do
  check (1 ≤ a.size)
  deallocateLoop a offset a.blocks a.size 0

/-- `address_space_allocator_reset`. -/
def reset (a : AddressSpaceAllocator) : Checked AddressSpaceAllocator := do
  check (1 ≤ a.size)
  let blocks ← writeAt a.blocks 0 (.ofFields 0 a.totalBytes true)
  return { a with blocks, size := 1 }

end AddressSpaceAllocator

/-- A call of the interface; a call that may reallocate brings the state of the
heap. -/
inductive Op
  | allocate (heap : Heap) (size : ℕ)
  | allocateFixed (heap : Heap) (size offset : ℕ)
  | deallocate (offset : ℕ)
  | reset

/-- Perform a call, with its return value (`0` for `reset`, which has none). -/
def AddressSpaceAllocator.call (a : AddressSpaceAllocator) :
    Op → Checked (AddressSpaceAllocator × ℤ)
  | .allocate heap size => do
    let (a, offset) ← a.allocate heap size
    return (a, offset)
  | .allocateFixed heap size offset => a.allocateFixed heap size offset
  | .deallocate offset => do
    let (a, r) ← a.deallocate offset
    return (a, r)
  | .reset => do
    let a ← a.reset
    return (a, 0)

end AndroidEmu.AddressSpace
