import AndroidEmu.Pipe.Transfer

/-!
# The pipe device

Version two of the device in `hw/misc/goldfish_pipe.c`, for a driver that reports version four. The
guest chooses the ids of pipes. What guest memory, the allocator and the service behind the pipes do
during an event is part of the event.
-/

namespace AndroidEmu.Pipe

open CS

/-! ### The state -/

/-- `struct PipeDevice`, the fields of version two. The two shared buffers are kept as
their guest address and whether they are mapped. -/
structure PipeDevice where
  pipes : List (Option ℕ)
  pipesCapacity : ℕ
  wanted : WantedList
  signalledPipeBufferAddr : UInt64
  signalledPipeBufferSize : ℕ
  signalledPipeBuffer : Bool
  openCommandAddr : UInt64
  openCommand : Bool
  irq : Bool

def errorInval : ℤ := -1

def errorNomem : ℤ := -3

def wakeClosed : UInt8 := 1

def wakeRead : UInt8 := 2

def wakeWrite : UInt8 := 4

def hwPipeBytes : ℕ := 88

def pointerBytes : ℕ := 8

namespace PipeDevice

/-- `goldfish_pipe_realize`. -/
def realize (heap : Heap) : Checked PipeDevice :=
  if heap.grants (64 * pointerBytes) then
    .ok {
      pipes := List.replicate 64 none
      pipesCapacity := 64
      wanted := ⟨Store.empty, none⟩
      signalledPipeBufferAddr := 0
      signalledPipeBufferSize := 0
      signalledPipeBuffer := false
      openCommandAddr := 0
      openCommand := false
      irq := false }
  else .error .exit

/-- `dev->pipes[i]`. An index from the capacity on is out of bounds, also where the array
is longer. -/
def slot (d : PipeDevice) (i : ℕ) : Checked (Option ℕ) :=
  if i < d.pipesCapacity then readAt d.pipes i else .error .outOfBounds

/-- `dev->pipes[i] = v`. -/
def setSlot (d : PipeDevice) (i : ℕ) (v : Option ℕ) : Checked PipeDevice :=
  if i < d.pipesCapacity then do
    let pipes ← writeAt d.pipes i v
    return { d with pipes }
  else .error .outOfBounds

def loadPipe (d : PipeDevice) (r : ℕ) : Checked HwPipe := d.wanted.pipes.load r

def modifyPipe (d : PipeDevice) (r : ℕ) (f : HwPipe → HwPipe) : Checked PipeDevice := do
  let pipes ← d.wanted.pipes.modify r f
  return { d with wanted.pipes := pipes }

/-- `hwpipe_new0`, with the fields filled in that its callers set. -/
def hwpipeNew (d : PipeDevice) (heap : Heap) (p : HwPipe) : Checked (PipeDevice × ℕ) :=
  if heap.grants hwPipeBytes then
    let (pipes, r) := d.wanted.pipes.alloc p
    .ok ({ d with wanted.pipes := pipes }, r)
  else .error .outOfMemory

/-- `hwpipe_free`. -/
def hwpipeFree (d : PipeDevice) (r : ℕ) : Checked PipeDevice := do
  let pipes ← d.wanted.pipes.free r
  return { d with wanted.pipes := pipes }

/-- `wanted_pipes_add_v2`. -/
def wantedPipesAdd (d : PipeDevice) (r : ℕ) : Checked PipeDevice := do
  let wanted ← d.wanted.add r
  return { d with wanted }

/-- `wanted_pipes_remove_v2`. -/
def wantedPipesRemove (d : PipeDevice) (r : ℕ) : Checked PipeDevice := do
  let wanted ← d.wanted.remove r
  return { d with wanted }

/-- `close_all_pipes_v2`, for `n` slots from `i` on. -/
def closeAllFrom (i : ℕ) : ℕ → PipeDevice → Checked PipeDevice
  | 0, d => .ok d
  | n + 1, d => do
    match ← d.slot i with
    | none => closeAllFrom (i + 1) n d
    | some r =>
      let d ← d.hwpipeFree r
      let d ← d.setSlot i none
      closeAllFrom (i + 1) n d

/-- `close_all_pipes_v2`. -/
def closeAll (d : PipeDevice) : Checked PipeDevice := closeAllFrom 0 d.pipesCapacity d

/-! ### Opening and closing -/

/-- What an open or close depends on: the contents of the open command, the command buffer it names,
if that can be mapped, and what the service and the allocator do. -/
structure OpenRequest where
  commandBufferPtr : UInt64
  rwParamsMaxCount : ℕ
  commandBuffer : Option CommandBuffer
  hostPipe : Option ℕ
  heap : Heap

/-- The capacity the table grows to, an `int`. -/
def newCapacity (d : PipeDevice) (id : ℕ) : ℤ :=
  let needed := wrapNat 32 (id + 1)
  let doubled := wrapNat 32 (2 * d.pipesCapacity)
  let larger : ℕ := if doubled < needed then needed else doubled
  wrapInt larger

/-- The `size_t` an `int` is converted to. -/
def toSize (n : ℤ) : ℕ := (n % 2 ^ 64).toNat

/-- Make room for an id in the table, if the allocator grants it. -/
def grow (d : PipeDevice) (heap : Heap) (id : ℕ) : Checked (Option PipeDevice) :=
  if id < d.pipesCapacity then .ok (some d)
  else
    let n := toSize (d.newCapacity id)
    if heap.grants (n * pointerBytes) then
      -- the `memcpy` of the old table
      if d.pipesCapacity ≤ n ∧ d.pipesCapacity ≤ d.pipes.length then
        .ok (some { d with
          pipes := d.pipes.take d.pipesCapacity ++ List.replicate (n - d.pipesCapacity) none
          pipesCapacity := wrapNat 32 n })
      else .error .outOfBounds
    else .ok none

/-- The end of `pipeDevice_doOpenClose_v2`: a new pipe goes into its slot, unless the service
refuses it. -/
def openPipe (d : PipeDevice) (id : ℕ) (q : OpenRequest) : Checked (PipeDevice × Option ℤ) := do
  let (d, r) ← d.hwpipeNew q.heap { id, hostPipe := q.hostPipe }
  if q.hostPipe = none then
    let d ← d.hwpipeFree r
    return (d, some errorNomem)
  else
    let d ← d.modifyPipe r fun p => { p with
      commandBufferAddr := q.commandBufferPtr
      rwParamsMaxCount := q.rwParamsMaxCount }
    let d ← d.setSlot id (some r)
    return (d, some 0)

/-- The device and the status stored in the command buffer. -/
def doOpenClose (d : PipeDevice) (id : ℕ) (q : OpenRequest) : Checked (PipeDevice × Option ℤ) :=
  if d.openCommand = false then .error .nullPointer
  else match q.commandBuffer with
  | none => .ok (d, none)
  | some b =>
    if q.rwParamsMaxCount < 1 then .ok (d, some errorInval)
    else if b.id ≠ id then .ok (d, some errorInval)
    else if b.cmd = 2 then .ok (d, some 0)
    else if b.cmd ≠ 1 then .ok (d, some errorInval)
    else do
      match ← d.grow q.heap id with
      | none => return (d, some errorNomem)
      | some d => d.openPipe id q

/-! ### Commands -/

/-- What a command on an open pipe depends on: the build, guest memory, the command
buffer, and the answers of the service. -/
structure CommandRequest where
  build : Build
  target : Target
  mem : GuestMemory
  commandBuffer : CommandBuffer
  replies : Replies
  poll : ℤ

/-- What a command does besides changing the device: the status it stores in the command
buffer, if any, and what a transfer does. -/
structure Reply where
  status : Option ℤ
  transfer : Option Outcome := none
  deriving DecidableEq

/-- A transfer that leaves its buffers is a fault of the device. -/
def liftFault : TransferFault → Fault
  | .assertion => .assertion
  | _ => .bufferOverrun

/-- A read or a write. -/
def doTransfer (d : PipeDevice) (r : ℕ) (p : HwPipe) (kind : RwKind) (q : CommandRequest) :
    Checked (PipeDevice × Reply) := do
  let o ← (Pipe.transfer q.build q.target q.mem p q.commandBuffer kind q.replies).mapError liftFault
  let d ← d.modifyPipe r fun p => { p with hostPipe := o.hostPipe }
  return (d, ⟨some o.status, some o⟩)

/-- A request to be woken. -/
def wakeOn (d : PipeDevice) (r : ℕ) (p : HwPipe) (flag : UInt8) : Checked (PipeDevice × Reply) := do
  let d ← (if p.wanted &&& flag = 0 then
      d.modifyPipe r fun p => { p with wanted := p.wanted ||| flag }
    else pure d)
  return (d, { status := some 0 })

/-- The close command. -/
def closePipe (d : PipeDevice) (r : ℕ) (p : HwPipe) : Checked (PipeDevice × Reply) := do
  let d ← d.setSlot p.id none
  let d ← d.wantedPipesRemove r
  let d ← d.hwpipeFree r
  return (d, { status := some 0 })

/-- `pipeDevice_doCommand_v2`. -/
def doCommand (d : PipeDevice) (r : ℕ) (q : CommandRequest) : Checked (PipeDevice × Reply) := do
  let p ← d.loadPipe r
  let cmd := q.commandBuffer.cmd
  check (q.build = .release ∨ cmd ≠ 1)
  if p.closed ∧ cmd ≠ 2 then return (d, { status := some errorIo })
  else match cmd with
  | 2 => d.closePipe r p
  | 3 => return (d, { status := some q.poll })
  | 4 => d.doTransfer r p .write q
  | 5 => d.wakeOn r p wakeWrite
  | 6 => d.doTransfer r p .read q
  | 7 => d.wakeOn r p wakeRead
  | 9 => return (d, { status := some 0 })
  | 10 => return (d, { status := some 0 })
  | 11 => d.doTransfer r p .call q
  | _ => return (d, { status := none })

/-- A write to the command register. -/
def writeCmd (d : PipeDevice) (id : ℕ) (o : OpenRequest) (q : CommandRequest) :
    Checked (PipeDevice × Reply) := do
  let found ← (if id < d.pipesCapacity then d.slot id else pure none)
  match found with
  | some r => d.doCommand r q
  | none =>
    let (d, status) ← d.doOpenClose id o
    return (d, { status })

/-! ### Signalling -/

/-- `goldfish_pipe_signal_wake`. -/
def signalWake (d : PipeDevice) (r : ℕ) (flags : UInt8) : Checked PipeDevice := do
  let d ← d.modifyPipe r fun p => { p with wanted := p.wanted ||| flags }
  let d ← d.wantedPipesAdd r
  return { d with irq := true }

/-- `goldfish_pipe_close_from_host`. -/
def closeFromHost (d : PipeDevice) (r : ℕ) : Checked PipeDevice := do
  let p ← d.loadPipe r
  if p.closed then return d
  else
    let d ← d.modifyPipe r fun p => { p with closed := true }
    d.signalWake r wakeClosed

/-- The loop of GET_SIGNALLED, with room for `n` more entries. -/
def drain : ℕ → PipeDevice → Checked (PipeDevice × List (ℕ × UInt8))
  | 0, d => .ok (d, [])
  | n + 1, d => do
    let (wanted, popped) ← d.wanted.popFirst
    let d := { d with wanted }
    match popped with
    | none => return (d, [])
    | some r =>
      let p ← d.loadPipe r
      -- the entry goes to the mapped buffer
      if d.signalledPipeBuffer = false then .error .nullPointer
      else
        let d ← d.modifyPipe r fun p => { p with wanted := 0 }
        let (d, entries) ← drain n d
        return (d, (p.id, p.wanted) :: entries)

/-- A read of `PIPE_REG_GET_SIGNALLED`: the pipes reported to the guest. -/
def getSignalled (d : PipeDevice) : Checked (PipeDevice × List (ℕ × UInt8)) := do
  let (d, entries) ← drain d.signalledPipeBufferSize d
  if d.wanted.first = none then return ({ d with irq := false }, entries)
  else return (d, entries)

/-- A read of `PIPE_REG_VERSION`: `close_all` and `reset_pipe_device`. -/
def readVersion (d : PipeDevice) : Checked PipeDevice := do
  let d ← d.closeAll
  return { d with wanted.first := none, irq := false }

/-! ### Snapshots -/

/-- What is saved of a pipe, without the service's own data. -/
structure SavedPipe where
  id : ℕ
  commandBufferAddr : UInt64
  rwParamsMaxCount : ℕ
  closed : Bool
  wanted : UInt8
  hasHostPipe : Bool
  deriving DecidableEq

/-- What is saved of the device, without its versions and the service's own data. -/
structure Image where
  signalledPipeBufferSize : ℕ
  signalledPipeBufferAddr : UInt64
  openCommandAddr : UInt64
  pipesCapacity : ℕ
  pipes : List SavedPipe
  wanted : List ℕ
  deriving DecidableEq

def SavedPipe.ofPipe (p : HwPipe) : SavedPipe where
  id := p.id
  commandBufferAddr := p.commandBufferAddr
  rwParamsMaxCount := p.rwParamsMaxCount
  closed := p.closed
  wanted := p.wanted
  hasHostPipe := p.hostPipe.isSome

def saveSlots (d : PipeDevice) (i : ℕ) : ℕ → Checked (List SavedPipe)
  | 0 => .ok []
  | n + 1 => do
    match ← d.slot i with
    | none => d.saveSlots (i + 1) n
    | some r =>
      let p ← d.loadPipe r
      let rest ← d.saveSlots (i + 1) n
      return .ofPipe p :: rest

/-- The ids of the pipes on the wanted list. The loop does not end if the list does not;
no list without a cycle is longer than the number of addresses used. -/
def saveWanted (d : PipeDevice) : Checked (List ℕ) :=
  match follow (links d.wanted.pipes).next d.wanted.pipes.bound d.wanted.first with
  | none => .error .endless
  | some rs => rs.mapM fun r => (d.loadPipe r).map HwPipe.id

/-- `goldfish_pipe_save_v2`. -/
def save (d : PipeDevice) : Checked Image := do
  let pipes ← d.saveSlots 0 d.pipesCapacity
  let wanted ← d.saveWanted
  return {
    signalledPipeBufferSize := d.signalledPipeBufferSize
    signalledPipeBufferAddr := d.signalledPipeBufferAddr
    openCommandAddr := d.openCommandAddr
    pipesCapacity := d.pipesCapacity
    pipes
    wanted }

/-- What loading depends on: the allocator, which guest buffers can be mapped, and what `guest_load`
returns for each pipe and whether it asks to close it. -/
structure LoadRequest where
  heap : Heap
  mapsSignalled : Bool
  mapsOpenCommand : Bool
  mapsCommandBuffer : ℕ → Bool
  guestLoad : ℕ → Option ℕ × Bool

/-- The host pipe of a loaded pipe, and whether it has to be closed. -/
def LoadRequest.hostPipe (q : LoadRequest) (sp : SavedPipe) : Option ℕ × Bool :=
  if sp.hasHostPipe then q.guestLoad sp.id else (none, true)

/-- The pipes of a snapshot: the device and the ids of the pipes to close, or the device
where loading failed. -/
def loadPipes (q : LoadRequest) :
    List SavedPipe → PipeDevice → Checked (PipeDevice × Option (List ℕ))
  | [], d => .ok (d, some [])
  | sp :: sps, d => do
    let (hostPipe, forceClose) := q.hostPipe sp
    let (d, r) ← d.hwpipeNew q.heap {
      id := sp.id
      commandBufferAddr := sp.commandBufferAddr
      rwParamsMaxCount := sp.rwParamsMaxCount
      closed := sp.closed || forceClose
      wanted := sp.wanted
      hostPipe }
    if q.mapsCommandBuffer sp.id = false ∨ (forceClose = false ∧ hostPipe = none) then
      let d ← d.hwpipeFree r
      return (d, none)
    else match ← d.slot sp.id with
    | some _ =>
      let d ← d.hwpipeFree r
      return (d, none)
    | none =>
      let d ← d.setSlot sp.id (some r)
      let (d, closing) ← loadPipes q sps d
      return (d, closing.map fun ids => if forceClose then sp.id :: ids else ids)

/-- The wanted list of a snapshot; `false` where loading failed. -/
def loadWanted : List ℕ → PipeDevice → Checked (PipeDevice × Bool)
  | [], d => .ok (d, true)
  | id :: ids, d => do
    match ← d.slot id with
    | none => return (d, false)
    | some r =>
      let d ← d.wantedPipesAdd r
      loadWanted ids d

/-- Forcibly closed pipes are wanted. -/
def closeLoaded : List ℕ → PipeDevice → Checked PipeDevice
  | [], d => .ok d
  | id :: ids, d => do
    match ← d.slot id with
    | none => .error .nullPointer
    | some r =>
      let d ← d.modifyPipe r fun p => { p with wanted := p.wanted ||| wakeClosed, closed := true }
      let d ← d.wantedPipesAdd r
      closeLoaded ids d

/-- The table of the size a snapshot needs; the old one is kept if it is large enough. -/
def loadTable (d : PipeDevice) (heap : Heap) (capacity : ℕ) : Option PipeDevice :=
  if d.pipesCapacity < capacity then
    if heap.grants (capacity * pointerBytes) then
      some { d with pipes := List.replicate capacity none, pipesCapacity := capacity }
    else none
  else some { d with pipesCapacity := capacity }

/-- The device and whether it was loaded. -/
def load (d : PipeDevice) (img : Image) (q : LoadRequest) : Checked (PipeDevice × Bool) := do
  let d := { d with wanted.first := none }
  let d ← d.closeAll
  let d := { d with
    signalledPipeBufferSize := img.signalledPipeBufferSize
    signalledPipeBufferAddr := img.signalledPipeBufferAddr
    signalledPipeBuffer := q.mapsSignalled }
  if q.mapsSignalled = false then return (d, false)
  else
    let d := { d with openCommandAddr := img.openCommandAddr, openCommand := q.mapsOpenCommand }
    if q.mapsOpenCommand = false then return (d, false)
    else match d.loadTable q.heap img.pipesCapacity with
    | none => return (d, false)
    | some d =>
      -- the array of ids to close, four bytes each
      if q.heap.grants (4 * img.pipes.length) = false then return (d, false)
      else
        let (d, closing) ← loadPipes q img.pipes d
        match closing with
        | none => return (d, false)
        | some ids =>
          let (d, ok) ← loadWanted img.wanted d
          if ok = false then return (d, false)
          else
            let d ← closeLoaded ids d
            return (d, true)

/-- A snapshot is loaded into the same device or, if an allocator is given, into a new one. -/
def loadTarget (d : PipeDevice) : Option Heap → Checked PipeDevice
  | none => .ok d
  | some heap => realize heap

/-- A snapshot is saved and loaded again. After a load `goldfish_pipe_post_load` raises the
interrupt. -/
def saveThenLoad (d : PipeDevice) (fresh : Option Heap) (q : LoadRequest) :
    Checked (PipeDevice × Bool) := do
  let img ← d.save
  let target ← d.loadTarget fresh
  let (d, ok) ← target.load img q
  return (if ok then { d with irq := true } else d, ok)

end PipeDevice

/-! ### Events -/

/-- What guest and host do. -/
inductive Event
  | writeCmd (id : ℕ) (o : PipeDevice.OpenRequest) (q : PipeDevice.CommandRequest)
  | writeSignalBufferHigh (value : UInt64)
  | writeSignalBuffer (value : UInt64)
  | writeSignalBufferCount (count : ℕ) (mapped : Bool)
  | writeOpenBufferHigh (value : UInt64)
  | writeOpenBuffer (value : UInt64) (mapped : Bool)
  | getSignalled
  | readVersion
  | signalWake (r : ℕ) (flags : UInt8)
  | closeFromHost (r : ℕ)
  | saveThenLoad (fresh : Option Heap) (q : PipeDevice.LoadRequest)

/-- What the guest and the host see of an event. -/
inductive Output
  | nothing
  | reply (r : PipeDevice.Reply)
  | signalled (entries : List (ℕ × UInt8))
  | loaded (ok : Bool)
  deriving DecidableEq

/-- `pipe_dev_write_v2`. -/
def PipeDevice.step (d : PipeDevice) : Event → Checked (PipeDevice × Output)
  | .writeCmd id o q => do
    let (d, r) ← d.writeCmd (wrapNat 32 id) o q
    return (d, .reply r)
  | .writeSignalBufferHigh value =>
    .ok ({ d with signalledPipeBufferAddr := value <<< 32 }, .nothing)
  | .writeSignalBuffer value =>
    .ok ({ d with signalledPipeBufferAddr := d.signalledPipeBufferAddr ||| value }, .nothing)
  | .writeSignalBufferCount count mapped =>
    if mapped then
      .ok ({ d with
        signalledPipeBufferSize := wrapNat 32 count
        signalledPipeBuffer := true }, .nothing)
    else .error .exit
  | .writeOpenBufferHigh value => .ok ({ d with openCommandAddr := value <<< 32 }, .nothing)
  | .writeOpenBuffer value mapped =>
    if mapped then
      .ok ({ d with openCommandAddr := d.openCommandAddr ||| value, openCommand := true }, .nothing)
    else .error .exit
  | .getSignalled => do
    let (d, entries) ← d.getSignalled
    return (d, .signalled entries)
  | .readVersion => do
    let d ← d.readVersion
    return (d, .nothing)
  | .signalWake r flags => do
    let d ← d.signalWake r flags
    return (d, .nothing)
  | .closeFromHost r => do
    let d ← d.closeFromHost r
    return (d, .nothing)
  | .saveThenLoad fresh q => do
    let (d, ok) ← d.saveThenLoad fresh q
    return (d, .loaded ok)

end AndroidEmu.Pipe
