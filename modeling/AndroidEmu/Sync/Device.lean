import AndroidEmu.CS.ByteStream
import AndroidEmu.CS.SinglyLinked
import AndroidEmu.CS.Store

/-!
# The sync device

`hw/misc/goldfish_sync.c`: `first_pending_cmd` points to the oldest command and `pending` to the
newest. Commands live in a store, so that one that is freed twice or read after it was freed is a
fault, and one that is not freed can be seen. The services behind the device are left out, apart
from the calls they get; so is `current`, which is null outside a register read.
-/

namespace AndroidEmu.Sync

open CS

/-! ### The pending commands -/

/-- `goldfish_sync_batch_cmd`. -/
structure BatchCmd where
  handle : UInt64
  hostcmdHandle : UInt64
  cmd : UInt32
  timeArg : UInt32
  deriving DecidableEq

/-- `goldfish_sync_batch_guestcmd`. -/
structure BatchGuestcmd where
  hostCommand : UInt64
  glsyncHandle : UInt64
  threadHandle : UInt64
  guestTimelineHandle : UInt64

/-- `struct goldfish_sync_pending_cmd`, which starts with a batch command. -/
structure PendingCmd where
  batch : BatchCmd
  next : Option ℕ

def triggerHostWait : UInt64 := 5

inductive Register
  | batchCommand
  | batchGuestcommand
  | batchCommandAddr
  | batchCommandAddrHigh
  | batchGuestcommandAddr
  | batchGuestcommandAddrHigh
  | init
  | invalid

def Register.ofOffset : ℕ → Register
  | 0x00 => .batchCommand
  | 0x04 => .batchGuestcommand
  | 0x08 => .batchCommandAddr
  | 0x0c => .batchCommandAddrHigh
  | 0x10 => .batchGuestcommandAddr
  | 0x14 => .batchGuestcommandAddrHigh
  | 0x18 => .init
  | _ => .invalid

/-- The fields of `struct goldfish_sync_state`. -/
structure SyncState where
  cmds : Store PendingCmd
  pending : Option ℕ
  firstPendingCmd : Option ℕ
  batchCmdAddr : UInt64
  batchGuestcmdAddr : UInt64
  irq : Bool

/-- What the guest and the services see of an event. A read of the batch command register writes
a command to guest memory, one of zeros when there are no more. -/
inductive Effect
  | nothing
  | returns (value : UInt64)
  | delivers (addr : UInt64) (batch : BatchCmd)
  | quits (addr : UInt64)
  | receivesHostcmdResult (incoming : BatchCmd)
  | triggersHostWait (glsync thread timeline : UInt64)
  deriving DecidableEq

namespace SyncState

/-- `goldfish_sync_realize`. -/
def realize : SyncState := ⟨Store.empty, none, none, 0, 0, false⟩

/-- `goldfish_sync_push_cmd`. -/
def pushCmd (s : SyncState) (r : ℕ) : Checked SyncState := do
  let cmds ← s.cmds.modify r fun c => { c with next := none }
  match s.pending with
  | some newest =>
    let cmds ← cmds.modify newest fun c => { c with next := some r }
    return { s with cmds, pending := some r }
  | none => return { s with cmds, firstPendingCmd := some r, pending := some r }

/-- `goldfish_sync_pop_first_cmd`. -/
def popFirstCmd (s : SyncState) : Checked (SyncState × Option ℕ) :=
  match s.firstPendingCmd with
  | none => .ok (s, none)
  | some popped => do
    let c ← s.cmds.load popped
    return ({ s with
      firstPendingCmd := c.next
      pending := if s.pending = some popped then none else s.pending }, some popped)

/-- The loop of `goldfish_sync_clear_pending`, with a bound on its rounds. -/
def freeFrom : ℕ → Option ℕ → Store PendingCmd → Checked (Store PendingCmd)
  | _, none, cmds => .ok cmds
  | 0, some _, _ => .error .endless
  | n + 1, some r, cmds => do
    let c ← cmds.load r
    let cmds ← cmds.free r
    freeFrom n c.next cmds

/-- `goldfish_sync_clear_pending`. -/
def clearPending (s : SyncState) : Checked SyncState := do
  let cmds ← freeFrom s.cmds.bound s.pending s.cmds
  return { s with cmds, pending := none, firstPendingCmd := none }

/-- `goldfish_sync_reset_device`. -/
def resetDevice (s : SyncState) : Checked SyncState := do
  let s ← s.clearPending
  return { s with irq := false }

/-! ### Events -/

/-- `goldfish_sync_send_command`. -/
def sendCommand (s : SyncState) (batch : BatchCmd) : Checked SyncState := do
  let (cmds, toSend) := s.cmds.alloc ⟨batch, none⟩
  let s ← pushCmd { s with cmds } toSend
  return { s with irq := true }

def readBatchCommand (s : SyncState) : Checked (SyncState × Effect) :=
  if s.batchCmdAddr = 0 then .ok (s, .returns 0)
  else do
    let (s, current) ← s.popFirstCmd
    match current with
    | none => return ({ s with irq := false }, .quits s.batchCmdAddr)
    | some r =>
      let c ← s.cmds.load r
      let cmds ← s.cmds.free r
      return ({ s with cmds }, .delivers s.batchCmdAddr c.batch)

def low (v : UInt64) : UInt64 := v % 0x100000000

def high (v : UInt64) : UInt64 := v >>> 32

/-- Other registers cannot be read. -/
def read (s : SyncState) : Register → Checked (SyncState × Effect)
  | .batchCommand => s.readBatchCommand
  | .batchCommandAddr => .ok (s, .returns (low s.batchCmdAddr))
  | .batchCommandAddrHigh => .ok (s, .returns (high s.batchCmdAddr))
  | .batchGuestcommandAddr => .ok (s, .returns (low s.batchGuestcmdAddr))
  | .batchGuestcommandAddrHigh => .ok (s, .returns (high s.batchGuestcmdAddr))
  | .batchGuestcommand | .init | .invalid => .error .assertion

/-- `goldfish_sync_write`, where guest memory holds the two commands at the two addresses. -/
def write (s : SyncState) (val : UInt64) (incoming : BatchCmd) (guestIncoming : BatchGuestcmd) :
    Register → Checked (SyncState × Effect)
  | .batchCommand =>
    if s.batchCmdAddr = 0 then .ok (s, .nothing) else .ok (s, .receivesHostcmdResult incoming)
  | .batchGuestcommand =>
    if s.batchGuestcmdAddr = 0 then .ok (s, .nothing)
    else if guestIncoming.hostCommand = triggerHostWait then
      .ok (s, .triggersHostWait guestIncoming.glsyncHandle guestIncoming.threadHandle
        guestIncoming.guestTimelineHandle)
    else .ok (s, .nothing)
  | .batchCommandAddr => .ok ({ s with batchCmdAddr := val }, .nothing)
  | .batchCommandAddrHigh =>
    .ok ({ s with batchCmdAddr := s.batchCmdAddr ||| val <<< 32 }, .nothing)
  | .batchGuestcommandAddr => .ok ({ s with batchGuestcmdAddr := val }, .nothing)
  | .batchGuestcommandAddrHigh =>
    .ok ({ s with batchGuestcmdAddr := s.batchGuestcmdAddr ||| val <<< 32 }, .nothing)
  | .init => do
    let s ← s.resetDevice
    return (s, .nothing)
  | .invalid => .error .assertion

end SyncState

/-- The host sends a command, or the guest accesses a register. -/
inductive Op
  | send (batch : BatchCmd)
  | read (offset : ℕ)
  | write (offset : ℕ) (val : UInt64) (incoming : BatchCmd) (guestIncoming : BatchGuestcmd)

namespace SyncState

def step (s : SyncState) : Op → Checked (SyncState × Effect)
  | .send batch => do
    let s ← s.sendCommand batch
    return (s, .nothing)
  | .read offset => s.read (.ofOffset offset)
  | .write offset val incoming guestIncoming =>
    s.write val incoming guestIncoming (.ofOffset offset)

/-! ### Snapshots -/

def putExists (p : Option ℕ) : Bytes := putBe 1 (if p.isSome then 1 else 0)

def putBatch (b : BatchCmd) : Bytes :=
  putBe 8 b.handle.toNat ++ (putBe 8 b.hostcmdHandle.toNat ++
    (putBe 8 b.cmd.toNat ++ putBe 8 b.timeArg.toNat))

/-- The loop of `save_pending_cmds`, with a bound on its rounds. -/
def saveFrom (cmds : Store PendingCmd) : ℕ → Option ℕ → Checked Bytes
  | _, none => .ok []
  | 0, some _ => .error .endless
  | n + 1, some r => do
    let c ← cmds.load r
    let rest ← saveFrom cmds n c.next
    return putBatch c.batch ++ (putExists c.next ++ rest)

/-- `goldfish_sync_save`, up to the data of the services. -/
def save (s : SyncState) : Checked Bytes := do
  let cmds ← saveFrom s.cmds s.cmds.bound s.pending
  return putBe 8 s.batchCmdAddr.toNat ++ (putBe 8 s.batchGuestcmdAddr.toNat ++
    (putExists s.pending ++ cmds))

/-- Read the four fields of a command; the last two are cut to 32 bits. -/
def getBatch (stream : Bytes) : BatchCmd × Bytes :=
  let handle := getBe 8 stream
  let hostcmdHandle := getBe 8 handle.2
  let cmd := getBe 8 hostcmdHandle.2
  let timeArg := getBe 8 cmd.2
  (⟨.ofNat handle.1, .ofNat hostcmdHandle.1, .ofNat cmd.1, .ofNat timeArg.1⟩, timeArg.2)

/-- The loop of `load_pending_cmds` from the command `curr` on, with a bound on its rounds. -/
def loadFrom : ℕ → Store PendingCmd → ℕ → Bytes → Checked (Store PendingCmd)
  | 0, _, _, _ => .error .endless
  | n + 1, cmds, curr, stream => do
    let batch := getBatch stream
    let more := getBe 1 batch.2
    if more.1 ≠ 0 then
      let (cmds, next) := cmds.alloc ⟨⟨0, 0, 0, 0⟩, none⟩
      let cmds ← cmds.modify curr fun _ => ⟨batch.1, some next⟩
      loadFrom n cmds next more.2
    else cmds.modify curr fun _ => ⟨batch.1, none⟩

/-- `load_pending_cmds`: the head of the list. -/
def loadPendingCmds (cmds : Store PendingCmd) (stream : Bytes) :
    Checked (Store PendingCmd × Option ℕ) :=
  let more := getBe 1 stream
  if more.1 = 0 then .ok (cmds, none)
  else do
    let (cmds, res) := cmds.alloc ⟨⟨0, 0, 0, 0⟩, none⟩
    -- a round reads 33 bytes, and at the end of the stream there are no more commands
    let cmds ← loadFrom (stream.length + 1) cmds res more.2
    return (cmds, some res)

/-- `goldfish_sync_load`. -/
def load (s : SyncState) (stream : Bytes) : Checked SyncState := do
  let s ← s.resetDevice
  let batchCmdAddr := getBe 8 stream
  let batchGuestcmdAddr := getBe 8 batchCmdAddr.2
  let (cmds, pending) ← loadPendingCmds s.cmds batchGuestcmdAddr.2
  return {
    cmds
    pending
    firstPendingCmd := pending
    batchCmdAddr := .ofNat batchCmdAddr.1
    batchGuestcmdAddr := .ofNat batchGuestcmdAddr.1
    irq := s.irq || pending.isSome }

def next (s : SyncState) (r : ℕ) : Option ℕ := (s.cmds.cell r).bind PendingCmd.next

/-- Pointers to the pending commands, from the oldest on. -/
def pendingNodes (s : SyncState) : List ℕ :=
  (follow s.next s.cmds.bound s.firstPendingCmd).getD []

def pendingCmds (s : SyncState) : List BatchCmd :=
  s.pendingNodes.filterMap fun r => (s.cmds.cell r).map PendingCmd.batch

end SyncState

/-! ### What the device is for -/

/-- The commands that wait, from the oldest on, and the two registers. -/
structure Queue where
  cmds : List BatchCmd
  batchCmdAddr : UInt64
  batchGuestcmdAddr : UInt64

namespace Queue

/-- A read of the batch command register takes the oldest command. -/
def readBatchCommand (q : Queue) : Queue × Effect :=
  if q.batchCmdAddr = 0 then (q, .returns 0)
  else match q.cmds with
    | [] => (q, .quits q.batchCmdAddr)
    | c :: cmds => ({ q with cmds }, .delivers q.batchCmdAddr c)

/-- What a register read does. -/
def read (q : Queue) : Register → Checked (Queue × Effect)
  | .batchCommand => .ok q.readBatchCommand
  | .batchCommandAddr => .ok (q, .returns (SyncState.low q.batchCmdAddr))
  | .batchCommandAddrHigh => .ok (q, .returns (SyncState.high q.batchCmdAddr))
  | .batchGuestcommandAddr => .ok (q, .returns (SyncState.low q.batchGuestcmdAddr))
  | .batchGuestcommandAddrHigh => .ok (q, .returns (SyncState.high q.batchGuestcmdAddr))
  | .batchGuestcommand | .init | .invalid => .error .assertion

/-- `goldfish_sync_write`. -/
def write (q : Queue) (val : UInt64) (incoming : BatchCmd) (guestIncoming : BatchGuestcmd) :
    Register → Checked (Queue × Effect)
  | .batchCommand =>
    if q.batchCmdAddr = 0 then .ok (q, .nothing) else .ok (q, .receivesHostcmdResult incoming)
  | .batchGuestcommand =>
    if q.batchGuestcmdAddr = 0 then .ok (q, .nothing)
    else if guestIncoming.hostCommand = triggerHostWait then
      .ok (q, .triggersHostWait guestIncoming.glsyncHandle guestIncoming.threadHandle
        guestIncoming.guestTimelineHandle)
    else .ok (q, .nothing)
  | .batchCommandAddr => .ok ({ q with batchCmdAddr := val }, .nothing)
  | .batchCommandAddrHigh =>
    .ok ({ q with batchCmdAddr := q.batchCmdAddr ||| val <<< 32 }, .nothing)
  | .batchGuestcommandAddr => .ok ({ q with batchGuestcmdAddr := val }, .nothing)
  | .batchGuestcommandAddrHigh =>
    .ok ({ q with batchGuestcmdAddr := q.batchGuestcmdAddr ||| val <<< 32 }, .nothing)
  | .init => .ok ({ q with cmds := [] }, .nothing)
  | .invalid => .error .assertion

def step (q : Queue) : Op → Checked (Queue × Effect)
  | .send batch => .ok ({ q with cmds := q.cmds ++ [batch] }, .nothing)
  | .read offset => q.read (.ofOffset offset)
  | .write offset val incoming guestIncoming =>
    q.write val incoming guestIncoming (.ofOffset offset)

end Queue

end AndroidEmu.Sync
