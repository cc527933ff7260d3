import AndroidEmu.RingBuffer.Operations
import Mathlib.Tactic

/-!
# The host's end of a graphics stream

`gfxstream/host/RingStream.cpp` in transfer mode 1: the ring `to_host` holds descriptors of bytes in
a write buffer that guest and host share. A range that is too long for the caller of `readRaw` goes
to a private buffer. The guest may change everything it shares with the host between any two rounds
of the host's loop.
-/

namespace AndroidEmu.Graphics

open CS RingBuffer List Option View UInt32

/-! ### Descriptors -/

structure Type1Xfer where
  offset : UInt32
  size : UInt32
  deriving DecidableEq, Repr

/-- `sizeof(struct asg_type1_xfer)`. -/
def xferSize : ℕ := 8

/-- A 32-bit number, least byte first. -/
def leUInt32 (bytes : List UInt8) : UInt32 :=
  bytes.foldr (fun b n => n * 256 + b.toUInt32) 0

/-- The descriptor in its eight bytes. -/
def Type1Xfer.decode (bytes : List UInt8) : Type1Xfer :=
  ⟨leUInt32 (bytes.take 4), leUInt32 ((bytes.drop 4).take 4)⟩

/-- The range lies in a buffer of `n` bytes. -/
def Type1Xfer.Inside (x : Type1Xfer) (n : ℕ) : Prop :=
  x.size = 0 ∨ x.offset.toNat + x.size.toNat ≤ n

instance (x : Type1Xfer) (n : ℕ) : Decidable (x.Inside n) := inferInstanceAs (Decidable (_ ∨ _))

/-! ### The stream -/

/-- The caller's buffer. No object reaches into the last four gigabytes of the address space, so
that a 32-bit size can be added to a pointer into it. -/
structure Target where
  address : ℕ
  wanted : ℕ
  fits : address + wanted + 2 ^ 32 ≤ 2 ^ 64

/-- The local variables of a call of `readRaw` that has not returned: the bytes stored in the
caller's buffer, and what decides how long to wait. -/
structure Reading where
  target : Target
  out : List UInt8
  spins : ℕ
  inLargeXfer : Bool

/-- `RingStream` with the memory it shares with the guest. The ring for large transfers stays
empty in transfer mode 1; the statistics and `host_consumed_pos` are left out. -/
structure RingStream where
  ring : Ring
  buffer : ℕ → UInt8
  bufferSize : ℕ
  transferSize : UInt32
  readBuffer : List UInt8
  readBufferLeft : ℕ
  shouldExit : Bool
  shouldExitForSnapshot : Bool
  inSnapshotOperation : Bool
  reading : Option Reading

/-- What one round of the loop shows: nothing yet, a null pointer, or the bytes returned. -/
inductive Outcome
  | working
  | null
  | returned (bytes : List UInt8)
  deriving DecidableEq, Repr

def Outcome.bytes : Outcome → List UInt8
  | .returned bytes => bytes
  | _ => []

namespace RingStream

/-- A new stream. The memory it shares is zero until the guest writes to it. -/
def new (bufferSize : ℕ) : RingStream where
  ring := .init fun _ => 0
  buffer _ := 0
  bufferSize := bufferSize
  transferSize := 0
  readBuffer := []
  readBufferLeft := 0
  shouldExit := false
  shouldExitForSnapshot := false
  inSnapshotOperation := false
  reading := none

/-- A `memcpy` from the write buffer. -/
def copyRange (s : RingStream) (x : Type1Xfer) : Checked (List UInt8) :=
  if x.Inside s.bufferSize then .ok (takeCells s.buffer x.offset.toNat x.size.toNat)
  else .error .outOfBounds

/-- `ring_buffer_advance_read` of one descriptor. -/
def advance (s : RingStream) : RingStream :=
  if s.ring.canRead View.internal 8 then { s with ring := s.ring.advanceRead 8 } else s

/-- The loop over the descriptors always ends in its first round. -/
def type1Read (s : RingStream) (r : Reading) (available : UInt32) :
    Checked (RingStream × Reading) :=
  let xferTotal := available / 8
  if xferTotal = 0 then .ok (s, r)
  else
    match s.ring.copyContents (xferTotal * 8) with
    -- the descriptors of an earlier call would be used
    | none => .error .uninitialized
    | some bytes =>
      let x := Type1Xfer.decode (bytes.take xferSize)
      let current := r.target.address + r.out.length
      if wrapNat 64 (current + x.size.toNat) > r.target.address + r.target.wanted then
        if r.out.length = 0 then do
          let range ← s.copyRange x
          return ({ s with readBuffer := range, readBufferLeft := x.size.toNat }.advance, r)
        else .ok (s, r)
      else do
        let range ← s.copyRange x
        if r.out.length + range.length > r.target.wanted then .error .bufferOverrun
        return (s.advance, { r with out := r.out ++ range })

def goOn (s : RingStream) (r : Reading) : Checked (RingStream × Outcome) :=
  .ok ({ s with reading := some r }, .working)

def leave (s : RingStream) (outcome : Outcome) : Checked (RingStream × Outcome) :=
  .ok ({ s with reading := none }, outcome)

/-- The result of `onUnavailableRead`. -/
def unavailable (s : RingStream) (result : ℤ) : RingStream :=
  if result = -1 then { s with shouldExit := true }
  else if result = -2 then { s with shouldExitForSnapshot := true }
  else if result = -3 then { s with shouldExitForSnapshot := false }
  else s

/-- The part of a round for which nothing is available. -/
def wait (s : RingStream) (r : Reading) (result : ℤ) : Checked (RingStream × Outcome) :=
  if r.inLargeXfer ∧ s.transferSize ≠ 0 then s.goOn r
  else
    let r := { r with inLargeXfer := false, spins := r.spins + 1 }
    if r.spins < 30 then s.goOn r
    else
      let r := { r with spins := 0 }
      if s.shouldExit then s.leave .null
      else if s.shouldExitForSnapshot ∧ s.inSnapshotOperation then s.leave .null
      else (s.unavailable result).goOn r

/-- The part of a round that looks at the ring. -/
def look (s : RingStream) (r : Reading) (result : ℤ) : Checked (RingStream × Outcome) :=
  if s.shouldExit then s.leave .null
  else
    let available := s.ring.availableRead View.internal
    if available ≠ 0 then do
      let (s, r) ← s.type1Read { r with inLargeXfer := false } available
      s.goOn r
    else s.wait r result

/-- Copy from the private buffer. -/
def drain (s : RingStream) (r : Reading) : Checked (RingStream × Outcome) := do
  let avail := min (r.target.wanted - r.out.length) s.readBufferLeft
  if s.readBuffer.length < s.readBufferLeft then .error .outOfBounds
  let bytes := (s.readBuffer.drop (s.readBuffer.length - s.readBufferLeft)).take avail
  { s with readBufferLeft := s.readBufferLeft - avail }.goOn { r with out := r.out ++ bytes }

/-- A round of the loop of `readRaw`; `result` is what `onUnavailableRead` returns, should it be
called. -/
def iterate (s : RingStream) (r : Reading) (result : ℤ) : Checked (RingStream × Outcome) :=
  if r.target.wanted ≤ r.out.length then s.leave (.returned r.out)
  else if s.readBufferLeft ≠ 0 then s.drain r
  else
    let s := { s with readBuffer := [] }
    if 0 < r.out.length then s.leave (.returned r.out)
    else s.look r result

end RingStream

/-- What happens to a stream: the guest sets what it shares, the host calls `readRaw`, the call
makes a round of its loop, or a snapshot begins (`pausePreSnapshot`) or ends (`resume`). -/
inductive StreamEvent
  | guest (writePos : UInt32) (buf buffer : ℕ → UInt8) (transferSize : UInt32)
  | readRaw (target : Target)
  | iterate (unavailReadResult : ℤ)
  | snapshot (on : Bool)

namespace RingStream

/-- Host and guest as a machine. The stream has one reader: while it is in a call there is no
other. -/
def step (s : RingStream) : StreamEvent → Checked (RingStream × Outcome)
  | .guest writePos buf buffer transferSize =>
    .ok ({ s with
      ring := { s.ring with writePos := writePos, buf := buf }
      buffer := buffer
      transferSize := transferSize }, .working)
  | .readRaw target =>
    match s.reading with
    | some _ => .ok (s, .working)
    | none => s.goOn { target := target, out := [], spins := 0, inLargeXfer := true }
  | .iterate result =>
    match s.reading with
    | none => .ok (s, .working)
    | some r => s.iterate r result
  | .snapshot on => .ok ({ s with inSnapshotOperation := on }, .working)

/-- The descriptor that the next round picks up. -/
def picks (s : RingStream) : Option Type1Xfer :=
  s.reading.bind fun r =>
    if r.out = [] ∧ 0 < r.target.wanted ∧ s.readBufferLeft = 0 ∧ s.shouldExit = false ∧
        8 ≤ s.ring.availableRead View.internal then
      some (.decode (takeCells s.ring.buf (View.internal.getRingPos s.ring.readPos).toNat xferSize))
    else none

/-- The descriptor that a round picks up describes a part of the write buffer. -/
def InBuffer (s : RingStream) : StreamEvent → Prop
  | .iterate _ => ∀ x ∈ s.picks, x.Inside s.bufferSize
  | _ => True

end RingStream

/-! ### What the stream is for -/

/-- The memory the guest shares, how many descriptors were taken from the ring, the bytes they
described then, those returned to the host, and the length the host asks for. -/
structure Feed where
  writePos : UInt32
  buf : ℕ → UInt8
  buffer : ℕ → UInt8
  taken : ℕ
  described : List UInt8
  returned : List UInt8
  asked : Option ℕ

namespace Feed

/-- Nothing was taken. -/
def new : Feed := ⟨0, fun _ => 0, fun _ => 0, 0, [], [], none⟩

def descriptor (t : Feed) : Type1Xfer :=
  .decode (takeCells t.buf (xferSize * t.taken % 2048) xferSize)

/-- A whole descriptor is in the ring. -/
def Available (t : Feed) : Prop :=
  8 ≤ View.internal.getRingPos (t.writePos - UInt32.ofNat (xferSize * t.taken))

def take (t : Feed) : Feed :=
  { t with
    taken := t.taken + 1
    described := t.described ++
      takeCells t.buffer t.descriptor.offset.toNat t.descriptor.size.toNat }

/-- The bytes described and not returned. -/
def pending (t : Feed) : List UInt8 := t.described.drop t.returned.length

def give (t : Feed) (n : ℕ) : Feed :=
  { t with returned := t.returned ++ t.pending.take n, asked := none }

/-- The steps of the stream. In a round of the loop nothing happens, or the next descriptor is
taken, once all bytes described before were returned, or the call returns as many pending bytes as
were asked for or as there are, but not none of many, or gives up without any. -/
inductive Step : Feed → StreamEvent → Outcome → Feed → Prop
  | guest (t : Feed) (writePos : UInt32) (buf buffer : ℕ → UInt8) (transferSize : UInt32) :
    Step t (.guest writePos buf buffer transferSize) .working
      { t with writePos := writePos, buf := buf, buffer := buffer }
  | ask (t : Feed) (target : Target) (h : t.asked = none) :
    Step t (.readRaw target) .working { t with asked := some target.wanted }
  | busy (t : Feed) (target : Target) (h : t.asked ≠ none) : Step t (.readRaw target) .working t
  | snapshot (t : Feed) (on : Bool) : Step t (.snapshot on) .working t
  | round (t : Feed) (result : ℤ) : Step t (.iterate result) .working t
  | take (t : Feed) (result : ℤ) (hasked : t.asked ≠ none) (hpending : t.returned = t.described)
      (havailable : t.Available) : Step t (.iterate result) .working t.take
  | give (t : Feed) (result : ℤ) (n : ℕ) (hasked : t.asked = some n)
      (hsome : n = 0 ∨ t.pending ≠ []) :
    Step t (.iterate result) (.returned (t.pending.take n)) (t.give n)
  | giveUp (t : Feed) (result : ℤ) (hasked : t.asked ≠ none) (hpending : t.returned = t.described) :
    Step t (.iterate result) .null { t with asked := none }

theorem Step.isPrefix {t t' : Feed} {e : StreamEvent} {o : Outcome} (h : Step t e o t')
    (hfront : t.returned <+: t.described) :
    t'.returned <+: t'.described ∧ t'.returned = t.returned ++ o.bytes := by
  cases h with
  | guest | ask | busy | snapshot | round | giveUp =>
    exact ⟨hfront, (append_nil _).symm⟩
  | take => exact ⟨hfront.trans (prefix_append _ _), (append_nil _).symm⟩
  | give result n hasked hsome =>
    obtain ⟨rest, hrest⟩ := hfront
    refine ⟨?_, rfl⟩
    have hpending : t.pending = rest := by rw [pending, ← hrest, drop_left]
    change t.returned ++ t.pending.take n <+: t.described
    rw [hpending, ← hrest]
    exact (prefix_append_right_inj _).mpr (by exact take_prefix n rest)

theorem follows_isPrefix {t t' : Feed} {es : List StreamEvent} {os : List Outcome}
    (h : Follows Step t es os t') (hfront : t.returned <+: t.described) :
    t'.returned <+: t'.described ∧ t'.returned = t.returned ++ os.flatMap Outcome.bytes := by
  induction h with
  | nil t => exact ⟨hfront, (append_nil _).symm⟩
  | cons hstep hrest ih =>
    obtain ⟨hfront1, hreturned1⟩ := hstep.isPrefix hfront
    obtain ⟨hfront', hreturned⟩ := ih hfront1
    exact ⟨hfront', by rw [hreturned, hreturned1, flatMap_cons, append_assoc]⟩

end Feed

namespace RingStream

/-! ### The stream follows the specification -/

/-- The bytes in the caller's buffer. -/
def stored (s : RingStream) : List UInt8 := (s.reading.map Reading.out).getD []

/-- The bytes in the private buffer that were not drained. -/
def rest (s : RingStream) : List UInt8 :=
  s.readBuffer.drop (s.readBuffer.length - s.readBufferLeft)

/-- The stream stands where the specification does: the bytes described and not returned are in
the caller's buffer or in the private one. -/
structure Feeds (s : RingStream) (t : Feed) : Prop where
  writePos : s.ring.writePos = t.writePos
  buf : s.ring.buf = t.buf
  buffer : s.buffer = t.buffer
  readPos : s.ring.readPos = UInt32.ofNat (xferSize * t.taken)
  left : s.readBufferLeft ≤ s.readBuffer.length
  asked : t.asked = s.reading.map fun r => r.target.wanted
  described : t.described = t.returned ++ (s.stored ++ s.rest)
  room : ∀ r ∈ s.reading, r.out.length ≤ r.target.wanted

theorem feeds_new (bufferSize : ℕ) : Feeds (new bufferSize) Feed.new where
  writePos := rfl
  buf := rfl
  buffer := rfl
  readPos := rfl
  left := le_rfl
  asked := rfl
  described := rfl
  room := by simp [new]

variable {s : RingStream} {t : Feed} {r : Reading}

namespace Feeds

open Feed

theorem pending_eq (h : Feeds s t) : t.pending = s.stored ++ s.rest := by
  rw [pending, h.described, drop_left]

theorem asked_eq (h : Feeds s t) (hr : s.reading = some r) : t.asked = some r.target.wanted := by
  rw [h.asked, hr]
  rfl

theorem goOn (h : Feeds s t) (hr : s.reading = some r) {s' : RingStream} {r' : Reading}
    (hring : s'.ring = s.ring) (hbuffer : s'.buffer = s.buffer)
    (hread : s'.readBuffer = s.readBuffer) (hleft : s'.readBufferLeft = s.readBufferLeft)
    (htarget : r'.target = r.target) (hout : r'.out = r.out) :
    Feeds { s' with reading := some r' } t := by
  have hstored : s.stored = r.out := by rw [stored, hr]; rfl
  refine ⟨hring ▸ h.writePos, hring ▸ h.buf, hbuffer ▸ h.buffer, hring ▸ h.readPos, ?_, ?_, ?_, ?_⟩
  · change s'.readBufferLeft ≤ s'.readBuffer.length
    rw [hread, hleft]
    exact h.left
  · rw [h.asked_eq hr]
    exact congrArg some (congrArg Target.wanted htarget.symm)
  · rw [h.described, hstored, ← hout]
    simp only [stored, rest, hread, hleft]
    rfl
  · rintro _ ⟨⟩
    rw [hout, htarget]
    exact h.room r hr

theorem leave (h : Feeds s t) (hr : s.reading = some r) (s' : RingStream)
    (hring : s'.ring = s.ring) (hbuffer : s'.buffer = s.buffer) (hrest : s'.rest = s.rest)
    (hleft : s'.readBufferLeft ≤ s'.readBuffer.length)
    (hall : r.target.wanted ≤ r.out.length ∨ 0 < r.out.length ∧ s.rest = []) (result : ℤ) :
    Step t (.iterate result) (.returned r.out) (t.give r.target.wanted) ∧
      Feeds { s' with reading := none } (t.give r.target.wanted) := by
  have hstored : s.stored = r.out := by rw [stored, hr]; rfl
  have hpending := h.pending_eq
  rw [hstored] at hpending
  have htake : t.pending.take r.target.wanted = r.out := by
    have hroom := h.room r hr
    rw [hpending]
    rcases hall with hfull | ⟨-, hempty⟩
    · rw [take_left' (by omega)]
    · rw [hempty, append_nil, take_of_length_le hroom]
  constructor
  · have hsome : r.target.wanted = 0 ∨ t.pending ≠ [] := by
      rw [hpending, ne_eq, append_eq_nil_iff, ← length_eq_zero_iff]
      omega
    have hstep := Step.give t result r.target.wanted (h.asked_eq hr) hsome
    rwa [htake] at hstep
  · refine ⟨hring ▸ h.writePos, hring ▸ h.buf, hbuffer ▸ h.buffer, hring ▸ h.readPos, hleft, rfl,
      ?_, by simp⟩
    change t.described = (t.returned ++ t.pending.take r.target.wanted) ++ ([] ++ s'.rest)
    rw [htake, h.described, hstored, hrest, nil_append, append_assoc]

theorem rest_eq_nil (hleft : s.readBufferLeft = 0) : s.rest = [] := by
  rw [rest, hleft, Nat.sub_zero, drop_length]

theorem clear (h : Feeds s t) (hleft : s.readBufferLeft = 0) :
    Feeds { s with readBuffer := [] } t := by
  refine { h with left := by simp [hleft], described := ?_ }
  rw [h.described, rest_eq_nil hleft]
  simp only [stored, rest, drop_nil]

theorem giveUp (h : Feeds s t) (hr : s.reading = some r) (hout : r.out = []) (hrest : s.rest = [])
    (result : ℤ) : Step t (.iterate result) .null { t with asked := none } ∧
      Feeds { s with reading := none } { t with asked := none } := by
  have hstored : s.stored = [] := by rw [stored, hr, ← hout]; rfl
  have hall : t.returned = t.described := by
    rw [h.described, hstored, hrest, append_nil, append_nil]
  refine ⟨.giveUp t result (by simp [h.asked_eq hr]) hall,
    h.writePos, h.buf, h.buffer, h.readPos, h.left, rfl, ?_, by simp⟩
  change t.described = t.returned ++ ([] ++ s.rest)
  rw [hrest, hall, append_nil, append_nil]

/-! ### Descriptors -/

section

variable (h : Feeds s t) (havail : 8 ≤ s.ring.availableRead View.internal)

include h havail

/-- The descriptor at the read position is the next one of the specification, and what
`type1Read` decodes. -/
theorem copyContents :
    ∃ bytes, s.ring.copyContents (s.ring.availableRead View.internal / 8 * 8) = some bytes ∧
      Type1Xfer.decode (bytes.take xferSize) = t.descriptor := by
  have h8 : 8 ≤ (s.ring.availableRead internal).toNat := le_iff_toNat_le.mp havail
  generalize hav : s.ring.availableRead internal = avail at h8
  have hlt : avail.toNat < 2 ^ 32 := avail.toNat_lt
  have hwanted : (avail / 8 * 8).toNat = avail.toNat / 8 * 8 := by
    exact Nat.mod_eq_of_lt (lt_of_le_of_lt (Nat.div_mul_le_self _ _) hlt)
  have hle : avail / 8 * 8 ≤ s.ring.availableRead internal := by
    rw [hav, le_iff_toNat_le, hwanted]
    exact Nat.div_mul_le_self _ _
  obtain ⟨bytes, hbytes, htake⟩ := Ring.copyContents_take h.readPos hle (k := xferSize)
    (by rw [hwanted, xferSize]; omega) (by rw [xferSize]; omega)
  exact ⟨bytes, hbytes, by rw [htake, descriptor, h.buf]⟩

theorem available : t.Available := by
  rwa [Ring.availableRead, h.writePos, h.readPos] at havail

theorem advance_ring (s' : RingStream) (hring : s'.ring = s.ring) :
    s'.advance = { s' with ring := s.ring.advanceRead 8 } ∧
      (s.ring.advanceRead 8).readPos = UInt32.ofNat (xferSize * t.take.taken) := by
  constructor
  · have hcan : s'.ring.canRead internal 8 = true := by
      rw [hring]
      exact decide_eq_true havail
    rw [advance, if_pos hcan, hring]
  · change s.ring.readPos + 8 = ofNat (xferSize * (t.taken + 1))
    rw [h.readPos, Nat.mul_add, ofNat_add]
    rfl

/-- What `type1Read` does with an empty caller's buffer. The size is added to a pointer that is
far from the end of the address space, so the check compares it with the length wanted. -/
theorem type1Read_eq (hout : r.out = []) : s.type1Read r (s.ring.availableRead View.internal) = (do
      let range ← s.copyRange t.descriptor
      if r.target.wanted < t.descriptor.size.toNat then
        return ({ s with
          readBuffer := range, readBufferLeft := t.descriptor.size.toNat }.advance, r)
      else
        if range.length > r.target.wanted then .error .bufferOverrun
        return (s.advance, { r with out := range })) := by
  obtain ⟨bytes, hbytes, hdecode⟩ := h.copyContents havail
  have htotal : s.ring.availableRead internal / 8 ≠ 0 := by
    intro hzero
    have h8 : 8 ≤ (s.ring.availableRead internal).toNat := le_iff_toNat_le.mp havail
    have hdiv := congrArg toNat hzero
    have : (s.ring.availableRead internal).toNat / 8 = 0 := hdiv
    omega
  have hsize : t.descriptor.size.toNat < 2 ^ 32 := t.descriptor.size.toNat_lt
  have hfits := r.target.fits
  unfold RingStream.type1Read
  rw [if_neg htotal, hbytes]
  dsimp only
  rw [hdecode, hout, length_nil, Nat.add_zero, wrapNat_of_lt (by omega), if_pos rfl]
  by_cases hlong : r.target.wanted < t.descriptor.size.toNat
  · rw [if_pos (by omega)]
    simp only [hlong, if_true]
  · rw [if_neg (by omega)]
    simp only [hlong, if_false, Nat.zero_add, nil_append]

theorem type1Read (hr : s.reading = some r) (r' : Reading) (htarget : r'.target = r.target)
    (hout : r'.out = []) (hempty : r.out = []) (hrest : s.rest = [])
    (hinside : t.descriptor.Inside s.bufferSize) : t.returned = t.described ∧
      ∃ s' r1, s.type1Read r' (s.ring.availableRead View.internal) = .ok (s', r1) ∧
        Feeds { s' with reading := some r1 } t.take := by
  have hstored : s.stored = [] := by rw [stored, hr, ← hempty]; rfl
  have hall : t.returned = t.described := by
    rw [h.described, hstored, hrest, append_nil, append_nil]
  have hasked : t.take.asked = some r'.target.wanted := by rw [htarget]; exact h.asked_eq hr
  set range := takeCells s.buffer t.descriptor.offset.toNat t.descriptor.size.toNat with hrange
  have hlen : range.length = t.descriptor.size.toNat := length_takeCells _ _ _
  have hdescribed : t.take.described = t.returned ++ range := by
    rw [hall, hrange, h.buffer]
    rfl
  refine ⟨hall, ?_⟩
  rw [h.type1Read_eq havail hout, copyRange, if_pos hinside, Checked.ok_bind]
  by_cases hlong : r'.target.wanted < t.descriptor.size.toNat
  · -- the range waits in the private buffer
    have hadvance := h.advance_ring havail { s with
      readBuffer := range, readBufferLeft := t.descriptor.size.toNat } rfl
    rw [if_pos hlong]
    refine ⟨_, r', rfl, ?_⟩
    rw [hadvance.1]
    refine ⟨h.writePos, h.buf, h.buffer, hadvance.2, hlen.ge, hasked, ?_, ?_⟩
    · rw [hdescribed]
      simp only [stored, rest, hlen, Nat.sub_self, drop_zero, map_some, getD_some, hout, nil_append]
      rfl
    · rintro _ ⟨⟩
      rw [hout]
      exact Nat.zero_le _
  · have hadvance := h.advance_ring havail s rfl
    rw [if_neg hlong, if_neg (show ¬ range.length > r'.target.wanted by omega)]
    refine ⟨_, _, rfl, ?_⟩
    rw [hadvance.1]
    refine ⟨h.writePos, h.buf, h.buffer, hadvance.2, h.left, hasked, ?_, ?_⟩
    · rw [hdescribed]
      change _ = t.returned ++ (range ++ s.rest)
      rw [hrest, append_nil]
    · rintro _ ⟨⟩
      change range.length ≤ r'.target.wanted
      omega

end

/-! ### A round of the loop -/

section

variable (h : Feeds s t)

include h

section

variable (hr : s.reading = some r)

include hr

theorem drain (hcount : r.out.length < r.target.wanted) :
    ∃ s', s.drain r = .ok (s', .working) ∧ Feeds s' t := by
  have hleft := h.left
  have hstored : s.stored = r.out := by rw [stored, hr]; rfl
  set avail := min (r.target.wanted - r.out.length) s.readBufferLeft with havail
  refine ⟨_, by rw [RingStream.drain, if_neg (by omega)]; rfl, ?_⟩
  refine ⟨h.writePos, h.buf, h.buffer, h.readPos, ?_, ?_, ?_, ?_⟩
  · change s.readBufferLeft - avail ≤ s.readBuffer.length
    omega
  · have hasked := h.asked_eq hr
    exact hasked
  · rw [h.described, hstored]
    have hdrop : s.readBuffer.drop (s.readBuffer.length - (s.readBufferLeft - avail)) =
        s.rest.drop avail := by
      rw [rest, drop_drop]
      congr 1
      omega
    change _ = t.returned ++ ((r.out ++ s.rest.take avail) ++
      s.readBuffer.drop (s.readBuffer.length - (s.readBufferLeft - avail)))
    rw [hdrop, append_assoc, take_append_drop]
  · rintro _ ⟨⟩
    change (r.out ++ s.rest.take avail).length ≤ r.target.wanted
    rw [length_append, length_take]
    omega

theorem wait (hout : r.out = []) (hrest : s.rest = []) (result : ℤ) :
    ∃ s' o t', s.wait r result = .ok (s', o) ∧ Step t (.iterate result) o t' ∧ Feeds s' t' := by
  have hup := h.giveUp hr hout hrest result
  unfold RingStream.wait
  dsimp only
  split_ifs
  · exact ⟨_, _, _, rfl, .round t result, h.goOn hr rfl rfl rfl rfl rfl rfl⟩
  · exact ⟨_, _, _, rfl, .round t result, h.goOn hr rfl rfl rfl rfl rfl rfl⟩
  · exact ⟨_, _, _, rfl, hup.1, hup.2⟩
  · exact ⟨_, _, _, rfl, hup.1, hup.2⟩
  · refine ⟨_, _, _, rfl, .round t result, ?_⟩
    unfold unavailable
    split_ifs
    all_goals exact h.goOn hr rfl rfl rfl rfl rfl rfl

theorem look (hout : r.out = []) (hleft : s.readBufferLeft = 0) (result : ℤ)
    (hinside : s.shouldExit = false → 8 ≤ s.ring.availableRead View.internal →
      t.descriptor.Inside s.bufferSize) :
    ∃ s' o t', s.look r result = .ok (s', o) ∧ Step t (.iterate result) o t' ∧ Feeds s' t' := by
  have hrest := rest_eq_nil hleft
  have hup := h.giveUp hr hout hrest result
  unfold RingStream.look
  by_cases hexit : s.shouldExit = true
  · rw [if_pos hexit]
    exact ⟨_, _, _, rfl, hup.1, hup.2⟩
  rw [if_neg hexit]
  by_cases hzero : s.ring.availableRead internal = 0
  · rw [if_neg (not_not.mpr hzero)]
    exact h.wait hr hout hrest result
  rw [if_pos hzero]
  by_cases havail : 8 ≤ s.ring.availableRead internal
  · obtain ⟨hall, s', r1, hread, hfeeds⟩ := h.type1Read havail hr
      { r with inLargeXfer := false } rfl hout hout hrest (hinside (by simpa using hexit) havail)
    rw [hread]
    exact ⟨_, _, _, rfl, .take t result (by simp [h.asked_eq hr]) hall (h.available havail), hfeeds⟩
  -- less than a descriptor: the loop tries again
  have htotal : s.ring.availableRead internal / 8 = 0 := by
    apply UInt32.toNat_inj.mp
    have hlt : (s.ring.availableRead internal).toNat < 8 :=
      UInt32.lt_iff_toNat_lt.mp (UInt32.not_le.mp havail)
    exact Nat.div_eq_of_lt hlt
  unfold RingStream.type1Read
  rw [if_pos htotal]
  exact ⟨_, _, _, rfl, .round t result, h.goOn hr rfl rfl rfl rfl rfl rfl⟩

theorem picks_eq (hout : r.out = [])
    (hwanted : 0 < r.target.wanted) (hleft : s.readBufferLeft = 0) (hexit : s.shouldExit = false)
    (havail : 8 ≤ s.ring.availableRead View.internal) : s.picks = some t.descriptor := by
  rw [picks, hr, bind_some, if_pos ⟨hout, hwanted, hleft, hexit, havail⟩, h.readPos,
    internal.getRingPos_ofNat, h.buf]
  rfl

/-- A round of the loop follows the specification, if the descriptor it picks up describes a part
of the write buffer. -/
theorem iterate (result : ℤ) (hin : s.InBuffer (.iterate result)) :
    ∃ s' o t', s.iterate r result = .ok (s', o) ∧ Step t (.iterate result) o t' ∧ Feeds s' t' := by
  unfold RingStream.iterate
  by_cases hfull : r.target.wanted ≤ r.out.length
  · obtain ⟨hstep, hfeeds⟩ := h.leave hr s rfl rfl rfl h.left (.inl hfull) result
    rw [if_pos hfull]
    exact ⟨_, _, _, rfl, hstep, hfeeds⟩
  rw [if_neg hfull]
  by_cases hleft : s.readBufferLeft = 0
  · have hrest := rest_eq_nil hleft
    rw [if_neg (not_not.mpr hleft)]
    by_cases hsome : 0 < r.out.length
    · obtain ⟨hstep, hfeeds⟩ := h.leave hr { s with readBuffer := [] } rfl rfl
        (by rw [hrest]; simp [rest]) (by simp [hleft]) (.inr ⟨hsome, hrest⟩) result
      rw [if_pos hsome]
      exact ⟨_, _, _, rfl, hstep, hfeeds⟩
    · have hout : r.out = [] := eq_nil_of_length_eq_zero (by omega)
      rw [if_neg hsome]
      refine (h.clear hleft).look hr hout hleft result fun hexit havail => ?_
      exact hin _ (h.picks_eq hr hout (by omega) hleft hexit havail)
  · obtain ⟨s', hdrain, hfeeds⟩ := h.drain hr (not_le.mp hfull)
    rw [if_pos hleft, hdrain]
    exact ⟨_, _, _, rfl, .round t result, hfeeds⟩

theorem iterate_outOfBounds (result : ℤ)
    (hout : ¬ s.InBuffer (.iterate result)) : s.iterate r result = .error .outOfBounds := by
  obtain ⟨x, hx, hinside⟩ : ∃ x ∈ s.picks, ¬ x.Inside s.bufferSize := by
    simpa [InBuffer] using hout
  have hpicks := hx
  rw [mem_def, picks, hr, bind_some] at hpicks
  split_ifs at hpicks with hcond
  obtain ⟨hempty, hwanted, hleft, hexit, havail⟩ := hcond
  rw [mem_def, h.picks_eq hr hempty hwanted hleft hexit havail, some.injEq] at hx
  subst hx
  have hzero : s.ring.availableRead internal ≠ 0 := by
    intro hzero
    rw [hzero] at havail
    exact absurd havail (by decide)
  have hread := (h.clear hleft).type1Read_eq (r := { r with inLargeXfer := false }) havail hempty
  rw [RingStream.copyRange, if_neg hinside] at hread
  unfold RingStream.iterate
  rw [if_neg (by rw [hempty]; exact not_le.mpr hwanted), if_neg (not_not.mpr hleft)]
  rw [if_neg (by simp [hempty]), RingStream.look, if_neg (by simp [hexit])]
  rw [if_pos hzero, hread]
  rfl

end

theorem step (e : StreamEvent) (hin : s.InBuffer e) :
    ∃ s' o t', s.step e = .ok (s', o) ∧ Step t e o t' ∧ Feeds s' t' := by
  cases e with
  | guest writePos buf buffer transferSize =>
    exact ⟨_, _, _, rfl, .guest t writePos buf buffer transferSize,
      { h with writePos := rfl, buf := rfl, buffer := rfl }⟩
  | snapshot on =>
    exact ⟨_, _, _, rfl, .snapshot t on, { h with }⟩
  | readRaw target =>
    cases hr : s.reading with
    | some r =>
      refine ⟨s, .working, t, by simp only [RingStream.step, hr], .busy t target ?_, h⟩
      simp [h.asked_eq hr]
    | none =>
      refine ⟨{ s with reading := some ⟨target, [], 0, true⟩ }, _, _,
        by simp only [RingStream.step, hr]; rfl, .ask t target ?_,
        h.writePos, h.buf, h.buffer, h.readPos, h.left, rfl, ?_, ?_⟩
      · rw [h.asked, hr]
        rfl
      · rw [h.described, stored, hr]
        rfl
      · rintro _ ⟨⟩
        exact Nat.zero_le _
  | iterate result =>
    cases hr : s.reading with
    | none => exact ⟨s, _, t, by simp only [RingStream.step, hr], .round t result, h⟩
    | some r =>
      obtain ⟨s', o, t', hiter, hstep, hfeeds⟩ := h.iterate hr result hin
      exact ⟨s', o, t', by simp only [RingStream.step, hr, hiter], hstep, hfeeds⟩

theorem step_outOfBounds (e : StreamEvent) (hout : ¬ s.InBuffer e) :
    s.step e = .error .outOfBounds := by
  cases e with
  | guest | readRaw | snapshot => exact absurd trivial hout
  | iterate result =>
    cases hr : s.reading with
    | none =>
      refine absurd (fun x hx => ?_) hout
      rw [picks, hr] at hx
      cases hx
    | some r =>
      simp only [RingStream.step, hr]
      exact h.iterate_outOfBounds hr result hout

end

end Feeds

end RingStream

/-! ### Runs -/

/-- A run that copies from inside the write buffer and to inside the callers' buffers only, and
whose calls return the bytes of the ranges described, one after the other. -/
def Faithful (bufferSize : ℕ) (events : List StreamEvent) : Prop :=
  ∃ s t, (run RingStream.step (.new bufferSize) events).2 = .ok s ∧
    Follows Feed.Step Feed.new events (run RingStream.step (.new bufferSize) events).1 t ∧
    (run RingStream.step (.new bufferSize) events).1.flatMap Outcome.bytes = t.returned ∧
    t.returned <+: t.described

/-- A run of guest and host is faithful exactly if every descriptor that the host picks up
describes a part of the write buffer. -/
theorem read_faithful_iff (bufferSize : ℕ) (events : List StreamEvent) :
    Faithful bufferSize events ↔
      Meets RingStream.step RingStream.InBuffer (.new bufferSize) events := by
  have hstep : ∀ s t e, RingStream.Feeds s t → s.InBuffer e →
      ∃ s' o t', s.step e = .ok (s', o) ∧ Feed.Step t e o t' ∧ RingStream.Feeds s' t' :=
    fun _ _ e h hin => h.step e hin
  constructor
  · rintro ⟨s, t, hrun, -⟩
    refine meets_of_run_ok (fun s => ∃ t, RingStream.Feeds s t) ?_ ?_ events
      ⟨_, RingStream.feeds_new bufferSize⟩ hrun
    · rintro s e ⟨t, h⟩ hout
      exact ⟨_, h.step_outOfBounds e hout⟩
    · rintro s e s' o ⟨t, h⟩ hin hs'
      obtain ⟨s1, o1, t1, hs1, -, h1⟩ := h.step e hin
      rw [hs1] at hs'
      cases hs'
      exact ⟨t1, h1⟩
  · intro hmeets
    obtain ⟨s, t, hrun, hfollows, -⟩ :=
      run_follows hstep events _ _ (RingStream.feeds_new bufferSize) hmeets
    obtain ⟨hfront, hreturned⟩ := Feed.follows_isPrefix hfollows nil_prefix
    exact ⟨s, t, hrun, hfollows, hreturned.symm, hfront⟩

/-- The bytes of a ring that starts with a descriptor. -/
def ringWith (offset size : UInt8) : ℕ → UInt8
  | 0 => offset
  | 4 => size
  | _ => 0

/-- One byte behind a write buffer of sixteen. -/
theorem descriptor_leaves_buffer : ¬ Faithful 16 [.guest 8 (ringWith 16 1) (fun _ => 0) 0,
      .readRaw ⟨0x1000, 4, by decide⟩, .iterate 0] := by
  rintro ⟨s, t, hrun, -⟩
  cases hrun

end AndroidEmu.Graphics
