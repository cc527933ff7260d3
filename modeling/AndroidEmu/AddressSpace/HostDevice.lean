import AndroidEmu.AddressSpace.Device

/-!
# The host address-space device

`address_space_device.cpp`: the guest makes a handle, tells the address of a ping-info page for it,
and then pings. A ping reads the page through the pointer in the map of contexts without a check. A
handle is *told* when the page was told since its last destruction, at an address that the guest has
mapped. Pings on told handles are safe, pings on all others stop the emulator.
-/

namespace AndroidEmu.AddressSpace.HostDevice

open CS Function

/-! ### Contexts -/

inductive DeviceType
  | graphics
  | media
  | sensors
  | power
  | genericPipe
  | hostMemoryAllocator
  | sharedSlotsHostMemoryAllocator
  | virtioGpuGraphics
  deriving DecidableEq, Repr

/-- The type a page asks for, by the low half of its metadata. -/
def DeviceType.ofMetadata (metadata : UInt64) : Option DeviceType :=
  match metadata.toUInt32.toNat with
  | 0 => some .graphics
  | 1 => some .media
  | 2 => some .sensors
  | 3 => some .power
  | 4 => some .genericPipe
  | 5 => some .hostMemoryAllocator
  | 6 => some .sharedSlotsHostMemoryAllocator
  | 10 => some .virtioGpuGraphics
  | _ => none

/-- A context is known by its type here; what its `perform` does is its own affair. -/
structure DeviceContext where
  type : DeviceType
  physAddr : UInt64
  deriving DecidableEq, Repr

/-- The two build variants: `AEMU_MIN` is built without media. -/
inductive Variant
  | full
  | min
  deriving DecidableEq, Repr

/-- `buildAddressSpaceDeviceContext`. -/
def buildDeviceContext (variant : Variant) (type : Option DeviceType) (physAddr : UInt64) :
    Option DeviceContext :=
  match type with
  | some .graphics => some ⟨.graphics, physAddr⟩
  | some .media => if variant = .min then none else some ⟨.media, physAddr⟩
  | some .hostMemoryAllocator => some ⟨.hostMemoryAllocator, physAddr⟩
  | some .sharedSlotsHostMemoryAllocator => some ⟨.sharedSlotsHostMemoryAllocator, physAddr⟩
  | some .virtioGpuGraphics => some ⟨.virtioGpuGraphics, physAddr⟩
  | _ => none

/-- The fields of `AddressSpaceDevicePingInfo` that a ping reads itself. -/
structure PingInfo where
  physAddr : UInt64
  metadata : UInt64
  deriving DecidableEq, Repr

/-- `AddressSpaceContextDescription`; a pointer is a host address or `NULL`. -/
structure ContextDescription where
  pingInfo : Option ℕ := none
  pingInfoGpa : UInt64 := 0
  deviceContext : Option DeviceContext := none
  deriving DecidableEq, Repr

/-- `AddressSpaceDeviceState`: `mHandleIndex` and `mContexts`. -/
structure State where
  handleIndex : UInt32
  contexts : UInt32 → Option ContextDescription

/-- What a request meets: where `physicalMemoryGetAddr` finds a guest address, and what the
guest has put into the page at a host address. -/
structure Env where
  variant : Variant
  physicalMemoryGetAddr : UInt64 → Option ℕ
  pingInfoAt : ℕ → PingInfo

inductive PingResult
  | performed (context : DeviceContext)
  | created (context : DeviceContext)
  | refused
  deriving DecidableEq, Repr

namespace State

/-- The device when the emulator starts. -/
def init : State where
  handleIndex := 1
  contexts := fun _ => none

/-- Handle zero is skipped when the counter wraps. -/
def genHandle (d : State) : State × UInt32 :=
  if d.handleIndex = 0 then ({ d with handleIndex := d.handleIndex + 2 }, 1)
  else ({ d with handleIndex := d.handleIndex + 1 }, d.handleIndex)

/-- `sAddressSpaceDeviceDestroyHandle`. -/
def destroyHandle (d : State) (handle : UInt32) : State :=
  { d with contexts := Function.update d.contexts handle none }

/-- `mContexts[handle]`: the description under the handle, made if there is none. -/
def lookup (d : State) (handle : UInt32) : ContextDescription := (d.contexts handle).getD {}

/-- `sAddressSpaceDeviceTellPingInfo`. -/
def tellPingInfo (d : State) (env : Env) (handle : UInt32) (gpa : UInt64) : State :=
  let desc := { d.lookup handle with
    pingInfo := env.physicalMemoryGetAddr gpa
    pingInfoGpa := gpa }
  { d with contexts := Function.update d.contexts handle (some desc) }

/-- `sAddressSpaceDevicePing`. -/
def ping (d : State) (env : Env) (handle : UInt32) : Checked (State × PingResult) := do
  let desc := d.lookup handle
  let d := { d with contexts := Function.update d.contexts handle (some desc) }
  match desc.pingInfo with
  | none => .error .nullPointer
  | some hva =>
    let info := env.pingInfoAt hva
    match desc.deviceContext with
    | some context => return (d, .performed context)
    | none =>
      -- the first ping establishes the type
      match buildDeviceContext env.variant (DeviceType.ofMetadata info.metadata) info.physAddr with
      | none => return (d, .refused)
      | some context =>
        let desc := { desc with deviceContext := some context }
        return ({ d with contexts := Function.update d.contexts handle (some desc) },
          .created context)

end State

/-! ### Requests of the guest -/

/-- The registers behind the requests, the host device, and, for each handle, whether its
page was told since it was last destroyed, at an address the guest has mapped. -/
structure System where
  handle : UInt32
  pingInfoAddrLow : UInt32
  pingInfoAddrHigh : UInt32
  host : State
  told : UInt32 → Bool

def System.init : System where
  handle := 0
  pingInfoAddrLow := 0
  pingInfoAddrHigh := 0
  host := .init
  told := fun _ => false

def System.pingInfoAddr (s : System) : UInt64 :=
  s.pingInfoAddrHigh.toUInt64 <<< 32 ||| s.pingInfoAddrLow.toUInt64

/-- The commands of `address_space_run_command` about handles. -/
def System.runCommand (s : System) (env : Env) (cmd : UInt32) : System :=
  match cmd.toNat with
  -- `ADDRESS_SPACE_COMMAND_GEN_HANDLE`
  | 3 => { s with host := s.host.genHandle.1, handle := s.host.genHandle.2 }
  -- `ADDRESS_SPACE_COMMAND_DESTROY_HANDLE`
  | 4 => { s with
      host := s.host.destroyHandle s.handle
      told := Function.update s.told s.handle false }
  -- `ADDRESS_SPACE_COMMAND_TELL_PING_INFO_ADDR`
  | 5 => { s with
      host := s.host.tellPingInfo env s.handle s.pingInfoAddr
      told := Function.update s.told s.handle (env.physicalMemoryGetAddr s.pingInfoAddr).isSome }
  | _ => s

structure Write where
  offset : ℕ
  val : UInt32
  env : Env

def pingRegister : ℕ := 28

/-- The part of `address_space_control_write_locked` about handles. -/
def step (s : System) (w : Write) : Checked (System × Option PingResult) :=
  match w.offset with
  | 0 => .ok (s.runCommand w.env w.val, none)
  | 28 => do
    let (host, result) ← s.host.ping w.env w.val
    return ({ s with host := host }, some result)
  | 32 => .ok ({ s with pingInfoAddrLow := w.val }, none)
  | 36 => .ok ({ s with pingInfoAddrHigh := w.val }, none)
  | 40 => .ok ({ s with handle := w.val }, none)
  | _ => .ok (s, none)

/-! ### Told handles -/

/-- The told handles are those whose description has a ping-info pointer. -/
def System.Inv (s : System) : Prop :=
  ∀ handle, (s.host.lookup handle).pingInfo.isSome = s.told handle

def PingsTold (s : System) (w : Write) : Prop :=
  w.offset = pingRegister → s.told w.val = true

namespace State

variable {d : State} {env : Env} {handle h : UInt32}

theorem lookup_update (desc : Option ContextDescription) :
    ({ d with contexts := Function.update d.contexts handle desc } : State).lookup h =
      if h = handle then desc.getD {} else d.lookup h := by
  simp only [lookup, update_apply]
  split_ifs <;> rfl

theorem ping_of_none (hnone : (d.lookup handle).pingInfo = none) (env : Env) :
    d.ping env handle = .error .nullPointer := by
  simp only [ping, hnone]

theorem ping_of_isSome (hsome : (d.lookup handle).pingInfo.isSome) (env : Env) :
    ∃ d' result, d.ping env handle = .ok (d', result) ∧
      ∀ h, (d'.lookup h).pingInfo = (d.lookup h).pingInfo := by
  obtain ⟨hva, hhva⟩ := Option.isSome_iff_exists.mp hsome
  -- whatever is stored back under the handle has the pointer that was there
  have hkeep : ∀ (desc : ContextDescription) (contexts : UInt32 → Option ContextDescription),
      desc.pingInfo = (d.lookup handle).pingInfo →
      (∀ h, h ≠ handle → contexts h = d.contexts h) → ∀ h,
      (({ d with contexts := update contexts handle (some desc) } : State).lookup h).pingInfo =
        (d.lookup h).pingInfo := by
    intro desc contexts hdesc hother h
    unfold lookup at hdesc ⊢
    by_cases hh : h = handle
    · subst hh
      simpa using hdesc
    · simp [update_of_ne hh, hother h hh]
  simp only [ping, hhva]
  cases hcontext : (d.lookup handle).deviceContext with
  | some context => exact ⟨_, _, rfl, hkeep _ _ rfl fun _ _ => rfl⟩
  | none =>
    cases buildDeviceContext env.variant (DeviceType.ofMetadata (env.pingInfoAt hva).metadata)
        (env.pingInfoAt hva).physAddr with
    | none => exact ⟨_, _, rfl, hkeep _ _ rfl fun _ _ => rfl⟩
    | some context =>
      refine ⟨_, _, rfl, hkeep _ _ hhva.symm fun h hh => ?_⟩
      exact update_of_ne hh _ _

end State

variable {s : System}

theorem System.Inv.init : System.init.Inv := fun _ => rfl

open State

theorem System.Inv.ping_of_told (hinv : s.Inv) {handle : UInt32} (htold : s.told handle = true)
    (env : Env) : ∃ d' result, s.host.ping env handle = .ok (d', result) ∧
      ∀ h, (d'.lookup h).pingInfo = (s.host.lookup h).pingInfo :=
  ping_of_isSome ((hinv handle).trans htold) env

theorem System.Inv.ping_of_not_told (hinv : s.Inv) {handle : UInt32} (htold : s.told handle = false)
    (env : Env) : s.host.ping env handle = .error .nullPointer := by
  apply ping_of_none
  rw [← Option.not_isSome_iff_eq_none, hinv handle, htold]
  exact Bool.false_ne_true

theorem System.Inv.runCommand (hinv : s.Inv) (env : Env) (cmd : UInt32) :
    (s.runCommand env cmd).Inv := by
  intro handle
  have hh := hinv handle
  unfold System.runCommand
  split
  · unfold genHandle
    split_ifs
    · exact hh
    · exact hh
  · dsimp only [destroyHandle]
    rw [lookup_update, update_apply]
    split_ifs
    · rfl
    · exact hh
  · dsimp only [tellPingInfo]
    rw [lookup_update, update_apply]
    split_ifs
    · rfl
    · exact hh
  · exact hh

theorem step_inv (s : System) (w : Write) (hinv : s.Inv) :
    (step s w).Ensures (fun p => p.1.Inv) fun f => f = .nullPointer ∧ ¬ PingsTold s w := by
  unfold step
  split
  case h_1 => exact hinv.runCommand w.env w.val
  case h_2 _ hoffset =>
    cases htold : s.told w.val with
    | true =>
      obtain ⟨d', result, hping, hkeep⟩ := hinv.ping_of_told htold w.env
      rw [hping]
      intro handle
      exact (congrArg Option.isSome (hkeep handle)).trans (hinv handle)
    | false =>
      rw [hinv.ping_of_not_told htold w.env]
      refine ⟨rfl, fun hpings => ?_⟩
      rw [hpings hoffset] at htold
      cases htold
  case h_3 => exact hinv
  case h_4 => exact hinv
  case h_5 => exact hinv
  case h_6 => exact hinv

/-- **Pings.** In every run of register writes: a ping on a handle that was not told since it
was destroyed, or not at all, runs and creates no context, and if all pings are on told
handles, no null pointer is read and every ping on a told handle succeeds. -/
theorem ping_iff_told (ws : List Write) : (run step System.init ws).2.Ensures
      (fun s => ∀ handle env, s.told handle = false →
        s.host.ping env handle = .error .nullPointer) (fun f => f = .nullPointer) ∧
    (Meets step PingsTold System.init ws → (run step System.init ws).2.Ensures
        (fun s => ∀ handle env, s.told handle = true →
          ∃ d result, s.host.ping env handle = .ok (d, result)) fun _ => False) := by
  constructor
  · have hstep : ∀ s w, s.Inv → (step s w).Ensures (fun p => p.1.Inv) (fun f => f = .nullPointer) :=
      fun s w hinv => (step_inv s w hinv).imp (fun _ h => h) fun _ h => h.1
    apply (run_invariant_always hstep ws System.init System.Inv.init).mono
    intro s hinv handle env htold
    exact hinv.ping_of_not_told htold env
  · intro hmeets
    have hstep : ∀ s w, s.Inv → PingsTold s w →
        (step s w).Ensures (fun p => p.1.Inv) fun _ => False :=
      fun s w hinv hcond => (step_inv s w hinv).imp (fun _ h => h) fun _ h => h.2 hcond
    apply (run_invariant hstep ws System.init System.Inv.init hmeets).mono
    intro s hinv handle env htold
    obtain ⟨d, result, hping, -⟩ := hinv.ping_of_told htold env
    exact ⟨d, result, hping⟩

/-- A guest with one page, which asks for a graphics context. -/
def Env.onePage : Env where
  variant := .full
  physicalMemoryGetAddr gpa := if gpa = 0x1000 then some 0x7000 else none
  pingInfoAt _ := ⟨0x2000, 0⟩

/-- Make a handle, tell its page, and ping it twice. -/
def pingScript : List Write :=
  [⟨0, 3, .onePage⟩, ⟨32, 0x1000, .onePage⟩, ⟨0, 5, .onePage⟩, ⟨28, 1, .onePage⟩, ⟨28, 1, .onePage⟩]

theorem ping_iff_told_example : (run step System.init pingScript).1 = [none, none, none,
        some (.created ⟨.graphics, 0x2000⟩), some (.performed ⟨.graphics, 0x2000⟩)] ∧
      (run step System.init pingScript).2.Ensures
        (fun s => ∀ handle env, s.told handle = true →
          ∃ d result, s.host.ping env handle = .ok (d, result)) fun _ => False := by
  refine ⟨rfl, (ping_iff_told pingScript).2 ?_⟩
  refine .cons rfl (fun h => by cases h) (.cons rfl (fun h => by cases h)
    (.cons rfl (fun h => by cases h) (.cons rfl (fun _ => rfl) (.cons rfl (fun _ => rfl) trivial))))

/-- A handle that was made and not told, and one that was told and then destroyed: the ping
reads through a null pointer. -/
theorem ping_reads_null :
    (run step System.init [⟨0, 3, .onePage⟩, ⟨28, 1, .onePage⟩]).2 = .error .nullPointer ∧
      (run step System.init (pingScript ++ [⟨0, 4, .onePage⟩, ⟨28, 1, .onePage⟩])).2 =
        .error .nullPointer :=
  ⟨rfl, rfl⟩

end AndroidEmu.AddressSpace.HostDevice
