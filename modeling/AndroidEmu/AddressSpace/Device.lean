import AndroidEmu.AddressSpace.Runs

/-!
# The address space device

`hw/pci/goldfish_address_space.c`. The guest chooses all registers, the page size included. What the
services do that some writes call is part of the event: they may allocate whole blocks of a positive
size and free ranges, and call `allocate_fixed` only while a snapshot is loaded.
-/

namespace AndroidEmu.AddressSpace

open CS Nat

/-! ### The state -/

/-- The two build variants: Apple hardware with 16 KiB pages, and all others. -/
inductive Platform
  | appleArm64
  | other
  deriving DecidableEq

namespace Platform

def areaSize : Platform → ℕ
  | appleArm64 => 16 * 2 ^ 29
  | other => 16 * 2 ^ 30

def defaultGuestPageSize : Platform → ℕ
  | appleArm64 => 16384
  | other => 4096

/-- What a write to the page size register stores. -/
def storedPageSize : Platform → ℕ → ℕ
  | appleArm64, _ => 16384
  | other, val => wrapNat 32 val

end Platform

/-- `struct address_space_registers`, without the unused `ping`. -/
structure Registers where
  status : ℕ
  guestPageSize : ℕ
  sizeLow : ℕ
  sizeHigh : ℕ
  offsetLow : ℕ
  offsetHigh : ℕ
  pingInfoAddrLow : ℕ
  pingInfoAddrHigh : ℕ
  handle : ℕ
  physStartLow : ℕ
  physStartHigh : ℕ
  deriving DecidableEq

/-- `merge_u64`. -/
def mergeU64 (low high : ℕ) : ℕ := low ||| high <<< 32

/-- `lower_32_bits`. -/
def lower32Bits (x : ℕ) : ℕ := wrapNat 32 x

/-- `upper_32_bits`. -/
def upper32Bits (x : ℕ) : ℕ := wrapNat 32 (x >>> 32)

theorem mergeU64_lower_upper {x : ℕ} (h : x < 2 ^ 64) :
    mergeU64 (lower32Bits x) (upper32Bits x) = x := by
  have hlow : lower32Bits x < 2 ^ 32 := wrapNat_lt 32 x
  have hhigh : upper32Bits x = x / 2 ^ 32 := by
    rw [upper32Bits, shiftRight_eq_div_pow]
    exact wrapNat_of_lt (by omega)
  rw [mergeU64, hhigh, Nat.shiftLeft_eq, Nat.mul_comm, Nat.or_comm, ← two_pow_add_eq_or_of_lt hlow]
  exact div_add_mod x (2 ^ 32)

namespace Registers

def size (r : Registers) : ℕ := mergeU64 r.sizeLow r.sizeHigh

def offset (r : Registers) : ℕ := mergeU64 r.offsetLow r.offsetHigh

end Registers

/-- `struct address_space_state`: the registers and the allocator, the latter with
the ranges that are live. -/
structure Device where
  registers : Registers
  traced : Traced
  deriving DecidableEq

def ENOMEM : ℕ := 12

def ENOSYS : ℕ := 38

/-! ### Services -/

/-- A call of the host interface made by a service. -/
inductive HostCall
  | allocSharedHostRegion (heap : Heap) (size : ℕ) (hpos : 0 < size)
  | freeSharedHostRegion (offset : ℕ)

def HostCall.op : HostCall → Op
  | .allocSharedHostRegion heap size _ => .allocate heap size
  | .freeSharedHostRegion offset => .deallocate offset

/-- What the services do during a register write: the handle `gen_handle` returns,
the address of the area, and the calls made. -/
structure Service where
  handle : ℕ
  areaAddr : ℕ
  calls : List HostCall

/-- A register write of four bytes, the heap it meets and the services' part in it. -/
structure Write where
  offset : ℕ
  val : ℕ
  heap : Heap
  service : Service

inductive Event
  | write (w : Write)
  | host (call : HostCall)

/-! ### Register writes -/

/-- `address_space_align_size`. -/
def addressSpaceAlignSize (pageSize size : ℕ) : Checked ℕ :=
  if size = 0 then .ok 0
  else if pageSize = 0 then .error .divideByZero
  else .ok (wrapNat 64
    (subNat 64 (wrapNat 64 (size + wrapNat 64 (pageSize * 2))) 2 / pageSize * pageSize))

namespace Device

/-- `address_space_pci_realize`. -/
def realize (platform : Platform) (heap : Heap) : Checked Device := do
  let a ← AddressSpaceAllocator.init heap platform.areaSize 32
  return {
    registers := ⟨0, platform.defaultGuestPageSize, 0, 0, 0, 0, 0, 0, 0, 0, 0⟩
    traced := ⟨a, []⟩ }

def serve (d : Device) (service : Service) : Checked Device := do
  let traced ← (run step d.traced (service.calls.map HostCall.op)).2
  return { d with traced }

/-- `address_space_allocate_block`. -/
def allocateBlock (heap : Heap) (d : Device) : Checked (Device × ℕ) := do
  let r := d.registers
  let alignedSize ← addressSpaceAlignSize r.guestPageSize r.size
  if alignedSize = 0 then return (d, EINVAL)
  else
    let (traced, offset) ← step d.traced (.allocate heap alignedSize)
    let offset := offset.toNat
    let registers := { r with
      offsetLow := lower32Bits offset
      offsetHigh := upper32Bits offset
      sizeLow := lower32Bits alignedSize
      sizeHigh := upper32Bits alignedSize }
    return (⟨registers, traced⟩, if offset = badOffset then ENOMEM else 0)

/-- `goldfish_address_space_get_phys_addr_start_locked`. -/
def physAddrStart (d : Device) (service : Service) : ℕ :=
  let res := mergeU64 d.registers.physStartLow d.registers.physStartHigh
  if res = 0 then service.areaAddr else res

/-- `address_space_deallocate_block`. -/
def deallocateBlock (d : Device) (service : Service) : Checked (Device × ℕ) := do
  let offset := d.registers.offset
  let d ← (if d.physAddrStart service ≠ 0 then d.serve service else pure d)
  let (traced, r) ← step d.traced (.deallocate offset)
  return ({ d with traced }, r.toNat)

/-- The commands other than allocation and deallocation report `ENOSYS` whatever they do. -/
def runCommand (heap : Heap) (d : Device) (service : Service) (cmd : ℕ) : Checked (Device × ℕ) :=
  match cmd with
  | 1 => d.allocateBlock heap
  | 2 => d.deallocateBlock service
  | 3 => do
    let d ← d.serve service
    return ({ d with registers.handle := wrapNat 32 service.handle }, ENOSYS)
  | 4 => do
    let d ← d.serve service
    return (d, ENOSYS)
  | 5 => do
    let d ← d.serve service
    return (d, ENOSYS)
  | _ => .ok (d, ENOSYS)

/-- `address_space_control_write_locked` for a write of four bytes. -/
def write (platform : Platform) (d : Device) (w : Write) : Checked Device :=
  let val := wrapNat 32 w.val
  match w.offset with
  | 0 => do
    let (d, status) ← d.runCommand w.heap w.service val
    return { d with registers.status := status }
  | 8 => .ok { d with registers.guestPageSize := platform.storedPageSize val }
  | 12 => .ok { d with registers.sizeLow := val }
  | 16 => .ok { d with registers.sizeHigh := val }
  | 20 => .ok { d with registers.offsetLow := val }
  | 24 => .ok { d with registers.offsetHigh := val }
  | 28 => d.serve w.service
  | 32 => .ok { d with registers.pingInfoAddrLow := val }
  | 36 => .ok { d with registers.pingInfoAddrHigh := val }
  | 40 => .ok { d with registers.handle := val }
  | 44 => .ok { d with registers.physStartLow := val }
  | 48 => .ok { d with registers.physStartHigh := val }
  -- the status register (4) is read only, the other offsets have no register
  | _ => .ok d

/-- A register write or a call of the host interface. -/
def step (platform : Platform) (d : Device) : Event → Checked (Device × Unit)
  | .write w => do
    let d ← d.write platform w
    return (d, ())
  | .host call => do
    let (traced, _) ← AddressSpace.step d.traced call.op
    return ({ d with traced }, ())

def runFromRealize (platform : Platform) (heap : Heap) (es : List Event) : Checked Device := do
  let d ← realize platform heap
  (run (step platform) d es).2

end Device

/-! ### The size arithmetic -/

/-- The operands for which `address_space_align_size` gives zero or enough pages. -/
def SafeSize (pageSize size : ℕ) : Prop :=
  size = 0 ∨ (pageSize ≠ 0 ∧ size + pageSize < 2 ^ 64 + 2)

instance (pageSize size : ℕ) : Decidable (SafeSize pageSize size) :=
  inferInstanceAs (Decidable (_ ∨ _))

section SizeArithmetic

variable {p size : ℕ}

theorem addressSpaceAlignSize_of_ne (hsize : size ≠ 0) (hp : p ≠ 0) :
    addressSpaceAlignSize p size = .ok ((size + 2 * p - 2) % 2 ^ 64 / p * p) := by
  have hsum : subNat 64 (wrapNat 64 (size + wrapNat 64 (p * 2))) 2 =
      (size + 2 * p - 2) % 2 ^ 64 := by
    simp only [subNat, wrapNat]
    omega
  have hle : (size + 2 * p - 2) % 2 ^ 64 / p * p ≤ (size + 2 * p - 2) % 2 ^ 64 :=
    div_mul_le_self _ p
  rw [addressSpaceAlignSize, if_neg hsize, if_neg hp, hsum, wrapNat_of_lt (by omega)]

theorem addressSpaceAlignSize_of_safe (h : SafeSize p size) :
    ∃ n, addressSpaceAlignSize p size = .ok n ∧ n < 2 ^ 64 ∧ p ∣ n ∧ (n ≠ 0 → size ≤ n) := by
  by_cases hsize : size = 0
  · exact ⟨0, if_pos hsize, by positivity, dvd_zero p, by omega⟩
  obtain ⟨hp, hsum⟩ := h.resolve_left hsize
  have hle := div_mul_le_self ((size + 2 * p - 2) % 2 ^ 64) p
  refine ⟨_, addressSpaceAlignSize_of_ne hsize hp, by omega, dvd_mul_left p _, ?_⟩
  intro hne
  -- a sum that wraps around is below one page, and then the result is zero
  have hnowrap : size + 2 * p - 2 < 2 ^ 64 := by
    by_contra hwrap
    apply hne
    rw [div_eq_of_lt (by omega), zero_mul]
  rw [mod_eq_of_lt hnowrap]
  have := lt_div_mul_add (a := size + 2 * p - 2) (pos_of_ne_zero hp)
  omega

end SizeArithmetic

/-! ### What each event does -/

def Event.Allocates : Event → Prop
  | .write w => w.offset = 0 ∧ wrapNat 32 w.val = 1
  | .host _ => False

/-- An allocation is only asked for with a page size and a size that the arithmetic
can take. -/
def Event.Safe (d : Device) (e : Event) : Prop :=
  e.Allocates → SafeSize d.registers.guestPageSize d.registers.size

/-- What a guest that reads status zero relies on: the size registers hold whole pages, as many
bytes as it asked for or more, and the offset registers the start of a range of that size that
overlaps no other live one. -/
def AllocatedWell (before after : Device) : Prop :=
  after.registers.status = 0 → before.registers.guestPageSize ∣ after.registers.size ∧
    before.registers.size ≤ after.registers.size ∧
    ∃ others, after.traced.live = (after.registers.offset, after.registers.size) :: others ∧
      ∀ r ∈ others, after.registers.offset + after.registers.size ≤ r.1 ∨
        r.1 + r.2 ≤ after.registers.offset

theorem HostCall.basic (call : HostCall) : call.op.Basic := by
  cases call with
  | allocSharedHostRegion heap size hpos => exact hpos
  | freeSharedHostRegion offset => trivial

namespace Device

variable {total : ℕ} {d : Device} {heap : Heap} {service : Service}

theorem call_ensures (op : Op) (h : Invariant total d.traced) (hop : op.Basic) :
    (AddressSpace.step d.traced op).Ensures (fun p => Invariant total p.1) (· = .outOfMemory) :=
  (step_invariant h op hop.proper (Or.inl hop)).mono fun _ hp => hp.1

section

variable (h : Invariant total d.traced)

include h

theorem serve_ensures (service : Service) :
    (d.serve service).Ensures (fun d' => Invariant total d'.traced) (· = .outOfMemory) := by
  have hops : ∀ op ∈ service.calls.map HostCall.op, op.Basic := by
    intro op hop
    obtain ⟨call, -, rfl⟩ := List.mem_map.mp hop
    exact call.basic
  have hstep (s : Traced) (op : Op) (hs : Invariant total s) (hop : op.Basic) :=
    (step_invariant hs op hop.proper (Or.inl hop)).mono fun _ hp => hp.1
  have hmeets : Meets AddressSpace.step (fun _ op => op.Basic) d.traced
      (service.calls.map HostCall.op) :=
    meets_of_forall _ _ fun op hop _ => hops op hop
  exact (run_invariant hstep _ d.traced h hmeets).bind fun _ _ hs => hs

/-- The block the guest asks for: whole pages, enough of them, and disjoint from
every other live range when the status is zero. -/
theorem allocateBlock_ensures (hsafe : SafeSize d.registers.guestPageSize d.registers.size) :
    (d.allocateBlock heap).Ensures
      (fun p => Invariant total p.1.traced ∧ AllocatedWell d { p.1 with registers.status := p.2 })
      (· = .outOfMemory) := by
  obtain ⟨n, hn, hlt, hdvd, hle⟩ := addressSpaceAlignSize_of_safe hsafe
  rw [allocateBlock, hn, Checked.ok_bind]
  split_ifs with hzero
  · exact ⟨h, fun hstatus => absurd hstatus (by simp [EINVAL])⟩
  refine (call_ensures (.allocate heap n) h (pos_of_ne_zero hzero)).bind ?_
  rintro ⟨s', r⟩ hstep hinv
  obtain ⟨offset, rfl, hlive⟩ := step_allocate_live hstep
  refine ⟨hinv, ?_⟩
  intro hstatus
  have hgood : offset ≠ badOffset := by
    intro hbad
    simp [hbad, ENOMEM] at hstatus
  rw [if_neg hgood] at hlive
  obtain ⟨-, hend, htotal⟩ := hinv.live_bounds (r := (offset, n)) (by simp [hlive])
  -- both results fit in two registers, so the guest reads back what was computed
  have hsize : mergeU64 (lower32Bits n) (upper32Bits n) = n := mergeU64_lower_upper hlt
  have hoffset : mergeU64 (lower32Bits offset) (upper32Bits offset) = offset :=
    mergeU64_lower_upper (by omega)
  have hdisjoint := hinv.sound.live_disjoint
  rw [hlive, List.pairwise_cons] at hdisjoint
  simp only [Registers.size, Registers.offset, Int.toNat_natCast, hsize, hoffset]
  exact ⟨hdvd, hle hzero, d.traced.live, hlive, hdisjoint.1⟩

theorem deallocateBlock_ensures (service : Service) :
    (d.deallocateBlock service).Ensures (fun p => Invariant total p.1.traced)
      (· = .outOfMemory) := by
  have hserved : (if d.physAddrStart service ≠ 0 then d.serve service else pure d).Ensures
      (fun d' => Invariant total d'.traced) (· = .outOfMemory) := by
    split_ifs
    · exact serve_ensures h service
    · exact h
  refine hserved.bind fun d' _ hd' => ?_
  exact (call_ensures (.deallocate _) hd' trivial).bind fun _ _ hs => hs

theorem runCommand_ensures {cmd : ℕ}
    (hsafe : cmd = 1 → SafeSize d.registers.guestPageSize d.registers.size) :
    (d.runCommand heap service cmd).Ensures
      (fun p => Invariant total p.1.traced ∧
        (cmd = 1 → AllocatedWell d { p.1 with registers.status := p.2 }))
      (· = .outOfMemory) := by
  have hserve := serve_ensures h service
  unfold runCommand
  split
  · exact (allocateBlock_ensures h (hsafe rfl)).mono fun p hp => ⟨hp.1, fun _ => hp.2⟩
  · exact (deallocateBlock_ensures h service).mono fun p hp => ⟨hp, fun hcmd => by omega⟩
  · exact hserve.bind fun d' _ hd' => ⟨hd', fun hcmd => by omega⟩
  · exact hserve.bind fun d' _ hd' => ⟨hd', fun hcmd => by omega⟩
  · exact hserve.bind fun d' _ hd' => ⟨hd', fun hcmd => by omega⟩
  · exact ⟨h, fun hcmd => by contradiction⟩

end

theorem step_ensures (platform : Platform) (h : Invariant total d.traced) {e : Event}
    (hsafe : e.Safe d) : (d.step platform e).Ensures
      (fun p => Invariant total p.1.traced ∧ (e.Allocates → AllocatedWell d p.1))
      (· = .outOfMemory) := by
  cases e with
  | host call =>
    exact (call_ensures call.op h call.basic).bind fun _ _ hs => ⟨hs, False.elim⟩
  | write w =>
    have hwrite : (d.write platform w).Ensures
        (fun d' => Invariant total d'.traced ∧ ((Event.write w).Allocates → AllocatedWell d d'))
        (· = .outOfMemory) := by
      unfold write
      split
      case h_1 hoffset =>
        refine (runCommand_ensures h fun hcmd => hsafe ⟨hoffset, hcmd⟩).bind ?_
        intro p _ hp
        exact ⟨hp.1, fun hall => hp.2 hall.2⟩
      case h_7 hoffset =>
        refine (serve_ensures h w.service).mono fun d' hd' => ⟨hd', fun hall => ?_⟩
        exact absurd hall.1 (by omega)
      -- the other registers are plain stores
      all_goals exact ⟨h, fun hall => absurd hall.1 (by omega)⟩
    exact hwrite.bind fun _ _ hd' => hd'

/-! ### Runs -/

/-- All events of the run are safe in the state they meet. -/
def SafeRun (platform : Platform) (heap : Heap) (es : List Event) : Prop :=
  ∀ d, realize platform heap = .ok d → Meets (step platform) (fun d e => e.Safe d) d es

theorem realize_ensures (platform : Platform) (heap : Heap) :
    (realize platform heap).Ensures (fun d => Invariant platform.areaSize d.traced)
      (· = .outOfMemory) := by
  have harea : 0 < platform.areaSize ∧ platform.areaSize < 2 ^ 63 := by
    cases platform <;> decide
  refine (init_ensures heap platform.areaSize (by decide)).bind fun a hinit _ => ?_
  exact (init_invariant harea.1 harea.2 (by decide) hinit).1

/-- In a run of safe events nothing but a refused memory request stops the device, so
no division by zero and no failed assertion; and in every state reached, a further
safe event does not fail either, and an allocation that reports status zero is right. -/
theorem run_of_safe (platform : Platform) (heap : Heap) (es : List Event)
    (hsafe : SafeRun platform heap es) : (runFromRealize platform heap es).Ensures
      (fun d => ∀ e : Event, e.Safe d →
        (d.step platform e).Ensures (fun p => e.Allocates → AllocatedWell d p.1)
          (· = .outOfMemory))
      (· = .outOfMemory) := by
  refine (realize_ensures platform heap).bind fun d hd hinv => ?_
  have hstep (d : Device) (e : Event) (h : Invariant platform.areaSize d.traced) (he : e.Safe d) :=
    (step_ensures platform h he).mono fun _ hp => hp.1
  refine (run_invariant hstep es d hinv (hsafe d hd)).mono fun d' hd' e he => ?_
  exact (step_ensures platform hd' he).mono fun _ hp => hp.2

/-- A register write during which no service does anything. -/
def Write.plain (offset val : ℕ) : Event :=
  .write ⟨offset, val, Heap.ample, ⟨0, 0, []⟩⟩

theorem run_of_safe_example : SafeRun .other Heap.ample [Write.plain 12 5000, Write.plain 0 1] ∧
      (runFromRealize .other Heap.ample [Write.plain 12 5000, Write.plain 0 1]).Ensures
        (fun d => ∀ e : Event, e.Safe d →
          (d.step .other e).Ensures (fun p => e.Allocates → AllocatedWell d p.1)
            (· = .outOfMemory))
        (· = .outOfMemory) := by
  have hsafe : SafeRun .other Heap.ample [Write.plain 12 5000, Write.plain 0 1] := by
    intro d hd
    obtain rfl := Except.ok.inj hd
    refine ⟨fun h => absurd h.1 (by decide), fun d' _ hd' => ⟨fun _ => ?_, fun _ _ _ => trivial⟩⟩
    obtain ⟨rfl, -⟩ := Checked.pair_inj hd'
    decide
  exact ⟨hsafe, run_of_safe .other Heap.ample _ hsafe⟩

/-- A page size of zero stops the device at the division. With the default page size, a
request for all but one of `2 ^ 64` bytes is answered with status zero and one page. -/
theorem run_unsafe : runFromRealize .other Heap.ample
        [Write.plain 8 0, Write.plain 12 1, Write.plain 0 1] = .error .divideByZero ∧
      ∃ before after,
        runFromRealize .other Heap.ample
          [Write.plain 12 (2 ^ 32 - 1), Write.plain 16 (2 ^ 32 - 1)] = .ok before ∧
        before.step .other (Write.plain 0 1) = .ok (after, ()) ∧
        after.registers.status = 0 ∧ before.registers.size = 2 ^ 64 - 1 ∧
        after.registers.size = 4096 :=
  ⟨by decide +kernel, _, _, rfl, rfl, by decide +kernel, by decide +kernel, by decide +kernel⟩

end Device

end AndroidEmu.AddressSpace
