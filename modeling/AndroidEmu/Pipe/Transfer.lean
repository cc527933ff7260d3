import AndroidEmu.CS.Memory
import AndroidEmu.Pipe.HwPipe

/-!
# Transfers

READ, WRITE and CALL commands of `pipeDevice_doCommand_v2`, which the guest lays out in a page of
its own memory. Only the first buffer on each side of `RAM_SPLIT_BOUNDARY` is really mapped. The
others are placed at the same distance from their guest address, which only debug builds check.
-/

namespace AndroidEmu.Pipe

open CS

/-! ### Builds and faults -/

/-- Whether `NDEBUG` is defined. -/
inductive Build
  | debug
  | release
  deriving DecidableEq

/-- The targets with a split of guest memory. -/
inductive Target
  | mips
  | i386
  | arm
  deriving DecidableEq

def Target.ramSplitBoundary : Target → UInt64
  | mips => 0x20000000
  | i386 => 0xFFFFFFFF
  | arm => 0x40000000

/-- The ways a transfer leaves the defined behaviour: a failed assertion, and accesses outside the
command buffer, the local arrays `buffers` and `unmapIndex`, and the buffers that were filled in. -/
inductive TransferFault
  | assertion
  | commandBuffer
  | buffers
  | unmapIndex
  | slice
  deriving DecidableEq

def Build.assert (build : Build) (c : Prop) [Decidable c] : Except TransferFault Unit :=
  if build = .release ∨ c then .ok () else .error .assertion

/-! ### The command buffer -/

def commandBufferSize : ℕ := 4096

/-- The guest's page for the commands of a pipe. Only the first `commandBufferSize` bytes
are mapped. -/
structure CommandBuffer where
  bytes : ℕ → UInt8

namespace CommandBuffer

/-- A page with the given bytes and zeros elsewhere. -/
def ofBytes (bytes : List (ℕ × UInt8)) : CommandBuffer where
  bytes offset := (bytes.lookup offset).getD 0

/-- The number in `n` bytes from an offset on, lowest byte first. -/
def word (b : CommandBuffer) : (n offset : ℕ) → ℕ
  | 0, _ => 0
  | n + 1, offset => (b.bytes offset).toNat + 256 * b.word n (offset + 1)

def readWord (b : CommandBuffer) (n offset : ℕ) : Except TransferFault ℕ :=
  if offset + n ≤ commandBufferSize then .ok (b.word n offset) else .error .commandBuffer

def cmd (b : CommandBuffer) : ℕ := b.word 4 0

def id (b : CommandBuffer) : ℕ := b.word 4 4

def buffersCount (b : CommandBuffer) : ℕ := b.word 4 16

/-- Where a command has its pointers. -/
def ptrOffset (i : ℕ) : ℕ := 24 + 8 * i

/-- Where a command has its sizes. -/
def sizeOffset (maxCount i : ℕ) : ℕ := 24 + 8 * maxCount + 4 * i

/-- Where a command has its read index. -/
def readIndexOffset (maxCount : ℕ) : ℕ := 24 + 8 * maxCount + 4 * maxCount

end CommandBuffer

inductive RwKind
  | read
  | write
  | call
  deriving DecidableEq

def RwKind.willModifyData (kind : RwKind) : Bool := kind ≠ .write

/-! ### Guest memory -/

/-- `cpu_physical_memory_map`: the host pointer for a range of guest addresses, null if
there is none, and how many bytes are mapped there. -/
structure GuestMemory where
  map : UInt64 → ℕ → Bool → UInt64 × ℕ

/-- A guest memory in which all addresses map with one offset. -/
def GuestMemory.shifted (offset : UInt64) : GuestMemory where
  map phys size _ := (phys + offset, size)

/-- `map_guest_buffer`. -/
def GuestMemory.mapGuestBuffer (mem : GuestMemory) (phys : UInt64) (size : ℕ) (isWrite : Bool) :
    UInt64 :=
  let (ptr, l) := mem.map phys size isWrite
  if ptr = 0 then 0
  else if l ≠ size then 0
  else ptr

structure Buffer where
  data : UInt64
  size : ℕ
  deriving DecidableEq

/-! ### Filling in the buffers -/

/-- What a transfer depends on besides the command. -/
structure Setting where
  build : Build
  target : Target
  mem : GuestMemory
  willModifyData : Bool

/-- The length of the local array `buffers`. -/
def maxBuffers : ℕ := commandBufferSize / (8 + 4)

/-- The variables of the loop: the offsets from guest to host addresses on each side of the
boundary, with `1` for none yet; the buffers; and the indices of those that were mapped. -/
structure Mapping where
  diffFromGuestPreSplit : UInt64 := 1
  diffFromGuestPostSplit : UInt64 := 1
  buffers : List Buffer := []
  unmapIndex : List ℕ := []

variable (st : Setting)

/-- The end of the loop body: the buffer is complete. -/
def Mapping.store (m : Mapping) (b : Buffer) : Except TransferFault Mapping := do
  st.build.assert (b.data ≠ 0)
  st.build.assert (b.size ≠ 0)
  return { m with buffers := m.buffers ++ [b] }

/-- The loop body for the values of `rwPtrs[i]` and `rwSizes[i]`, where `i` buffers are
already filled in. -/
def Mapping.mapBuffer (m : Mapping) (ptr : UInt64) (size : ℕ) : Except TransferFault Mapping :=
  let boundary := st.target.ramSplitBoundary
  if maxBuffers ≤ m.buffers.length then .error .buffers
  else if (ptr ≤ boundary ∧ m.diffFromGuestPreSplit = 1) ∨
      (boundary < ptr ∧ m.diffFromGuestPostSplit = 1) then
    let data := st.mem.mapGuestBuffer ptr size st.willModifyData
    if 2 ≤ m.unmapIndex.length then .error .unmapIndex
    else
      let unmapIndex := m.unmapIndex ++ [m.buffers.length]
      if ptr ≤ boundary then
        { m with diffFromGuestPreSplit := data - ptr, unmapIndex }.store st ⟨data, size⟩
      else
        { m with diffFromGuestPostSplit := data - ptr, unmapIndex }.store st ⟨data, size⟩
  else if ptr ≤ boundary then
    m.store st ⟨ptr + m.diffFromGuestPreSplit, size⟩
  else
    m.store st ⟨ptr + m.diffFromGuestPostSplit, size⟩

/-- The loop, with `n` more buffers to fill in. -/
def mapBuffers (b : CommandBuffer) (maxCount : ℕ) : ℕ → Mapping → Except TransferFault Mapping
  | 0, m => .ok m
  | n + 1, m => do
    let i := m.buffers.length
    let ptr ← b.readWord 8 (CommandBuffer.ptrOffset i)
    let size ← b.readWord 4 (CommandBuffer.sizeOffset maxCount i)
    let m ← m.mapBuffer st (UInt64.ofNat ptr) size
    mapBuffers b maxCount n m

/-- The check of debug builds that every buffer but the first is where it maps to. -/
def verified (b : CommandBuffer) (maxCount : ℕ) (buffers : List Buffer) : Prop :=
  ∀ i ∈ List.range buffers.length, 1 ≤ i →
    (buffers[i]?.map Buffer.data) = some (st.mem.mapGuestBuffer
      (UInt64.ofNat (b.word 8 (CommandBuffer.ptrOffset i)))
      (b.word 4 (CommandBuffer.sizeOffset maxCount i)) st.willModifyData)

instance (b : CommandBuffer) (maxCount : ℕ) (buffers : List Buffer) :
    Decidable (verified st b maxCount buffers) :=
  inferInstanceAs (Decidable (∀ i ∈ _, _ → _))

/-! ### Handing the buffers to the service -/

def errorIo : ℤ := -4

inductive ServiceCall
  | guestSend (buffers : List Buffer)
  | guestRecv (buffers : List Buffer)
  deriving DecidableEq

/-- What the service answers: the two results, and the host pipe after sending. -/
structure Replies where
  send : ℤ
  recv : ℤ
  hostPipe : Option ℕ

/-- What a command does: the calls of the service, the values it stores in the command
buffer, the host pipe, and the buffers it unmaps. -/
structure Outcome where
  calls : List ServiceCall
  status : ℤ
  consumedSize : ℤ
  hostPipe : Option ℕ
  unmapped : List Buffer
  deriving DecidableEq

/-- A slice of the array, as the service reads it. -/
def handOver (buffers : List Buffer) (start count : ℕ) : Except TransferFault (List Buffer) :=
  if start + count ≤ buffers.length then .ok ((buffers.drop start).take count)
  else .error .slice

/-- `buffers_count`, limited to the maximum given when the pipe was opened. -/
def clampedCount (b : CommandBuffer) (maxCount : ℕ) : ℕ :=
  if maxCount < b.buffersCount then maxCount else b.buffersCount

/-- The number of send buffers, the first receive buffer and the number of receive
buffers. -/
def slices (kind : RwKind) (count readIndex : ℕ) : ℕ × ℕ × ℕ :=
  match kind with
  | .read => (0, 0, count)
  | .write => (count, 0, 0)
  | .call => (readIndex, readIndex, subNat 32 count readIndex)

/-- The calls of the service, the status and the number of bytes transferred. -/
def callService (buffers : List Buffer) (kind : RwKind) (count readIndex : ℕ) (replies : Replies) :
    Except TransferFault (List ServiceCall × ℤ × ℤ) := do
  let (sendCount, recvStart, recvCount) := slices kind count readIndex
  let sent ← (if sendCount ≠ 0 then
      (handOver buffers 0 sendCount).map fun bs => [ServiceCall.guestSend bs]
    else pure [])
  let status := if sendCount ≠ 0 then replies.send else 0
  let consumed := max status 0
  if 0 ≤ status ∧ recvCount ≠ 0 then
    let bs ← handOver buffers recvStart recvCount
    return (sent ++ [.guestRecv bs], replies.recv, wrapInt (consumed + max replies.recv 0))
  else return (sent, status, consumed)

/-- The `status` and `consumed_size` stored in the command buffer. -/
def results (kind : RwKind) (status consumed : ℤ) : ℤ × ℤ :=
  if kind = .call then (if 0 < consumed then 0 else status, consumed)
  else (status, if status < 0 then 0 else status)

/-- The branch for READ, WRITE and CALL in `pipeDevice_doCommand_v2`. -/
def transfer (build : Build) (target : Target) (mem : GuestMemory) (pipe : HwPipe)
    (b : CommandBuffer) (kind : RwKind) (replies : Replies) : Except TransferFault Outcome := do
  let st : Setting := ⟨build, target, mem, kind.willModifyData⟩
  let maxCount := pipe.rwParamsMaxCount
  let count := clampedCount b maxCount
  build.assert (count ≠ 0)
  build.assert (count ≤ maxBuffers)
  let m ← mapBuffers st b maxCount count {}
  build.assert (verified st b maxCount m.buffers)
  -- only a CALL has a read index
  let readIndex ←
    (if kind = .call then b.readWord 4 (CommandBuffer.readIndexOffset maxCount) else pure 0)
  build.assert (readIndex ≤ count)
  let (calls, status, consumed) ← callService m.buffers kind count readIndex replies
  return {
    calls
    status := (results kind status consumed).1
    consumedSize := (results kind status consumed).2
    hostPipe := if (slices kind count readIndex).1 ≠ 0 then replies.hostPipe else pipe.hostPipe
    unmapped := m.unmapIndex.filterMap (m.buffers[·]?) }

/-- `pipeDevice_doCommand_v2` for READ, WRITE and CALL: pipes closed by the host transfer
nothing. -/
def rwCommand (build : Build) (target : Target) (mem : GuestMemory) (pipe : HwPipe)
    (b : CommandBuffer) (kind : RwKind) (replies : Replies) : Except TransferFault Outcome :=
  if pipe.closed then
    .ok {
      calls := []
      status := errorIo
      consumedSize := Int.ofNat (b.word 4 20)
      hostPipe := pipe.hostPipe
      unmapped := [] }
  else transfer build target mem pipe b kind replies

end AndroidEmu.Pipe
