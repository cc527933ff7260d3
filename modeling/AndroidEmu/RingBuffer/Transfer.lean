import AndroidEmu.RingBuffer.Operations

/-!
# One producer and one consumer

A step of `ring_buffer_write` or `ring_buffer_read` is three actions: look at the other side's
position, copy, and move the own position. They interleave in any order, so a position may move
between a check and the copy it allows.
-/

namespace AndroidEmu.RingBuffer

open CS List

/-! ### The two sides -/

/-- A call of `ring_buffer_write` or `ring_buffer_read` in progress, with the loop's index. -/
structure Call where
  data : ℕ → UInt8
  stepSize : UInt32
  steps : UInt32
  i : UInt32

namespace Call

variable (c : Call)

/-- `i * step_size`, a 32-bit product. -/
def offset : ℕ := (c.i * c.stepSize).toNat

/-- The bytes of the caller's memory that the step is about. -/
def bytes : List UInt8 := takeCells c.data c.offset c.stepSize.toNat

def next : Call := { c with i := c.i + 1 }

@[simp] theorem length_bytes : c.bytes.length = c.stepSize.toNat := length_takeCells _ _ _

end Call

/-- Where a side is: outside a call, or in a step before its check, its copies or its move. -/
inductive Thread
  | idle
  | checking (c : Call)
  | copying (c : Call)
  | publishing (c : Call)

/-- The ring, the two sides, the bytes of the producer's accepted steps and the bytes the
consumer's steps have delivered. -/
structure System where
  ring : Ring
  producer : Thread
  consumer : Thread
  written : List UInt8
  received : List UInt8

def System.init (buf : ℕ → UInt8) : System where
  ring := .init buf
  producer := .idle
  consumer := .idle
  written := []
  received := []

/-- `ring_buffer_view_write`. -/
def System.produce (v : View) (s : System) : Checked System :=
  match s.producer with
  | .idle => .ok s
  | .checking c =>
    if c.i < c.steps ∧ s.ring.canWrite v c.stepSize then .ok { s with producer := .copying c }
    -- the call returns `steps`, or `i` with `EAGAIN`
    else .ok { s with producer := .idle }
  | .copying c => do
    let ring ← s.ring.copyIn v c.data c.offset c.stepSize
    return { s with ring := ring, producer := .publishing c }
  | .publishing c =>
    .ok { s with
      ring := s.ring.advanceWrite c.stepSize
      producer := .checking c.next
      written := s.written ++ c.bytes }

/-- `ring_buffer_view_read`. -/
def System.consume (v : View) (s : System) : Checked System :=
  match s.consumer with
  | .idle => .ok s
  | .checking c =>
    if c.i < c.steps ∧ s.ring.canRead v c.stepSize then .ok { s with consumer := .copying c }
    else .ok { s with consumer := .idle }
  | .copying c => do
    let data ← s.ring.copyOut v c.data c.offset c.stepSize
    return { s with consumer := .publishing { c with data := data } }
  | .publishing c =>
    .ok { s with
      ring := s.ring.advanceRead c.stepSize
      consumer := .checking c.next
      received := s.received ++ c.bytes }

/-- A side that is idle is called, or a side acts. -/
inductive Event
  | write (data : ℕ → UInt8) (stepSize steps : UInt32)
  | produce
  | read (data : ℕ → UInt8) (stepSize steps : UInt32)
  | consume

/-- A call on a side that is idle starts; the other side is not disturbed. -/
def Thread.call (data : ℕ → UInt8) (stepSize steps : UInt32) : Thread → Thread
  | .idle => .checking ⟨data, stepSize, steps, 0⟩
  | t => t

def step (v : View) (s : System) : Event → Checked (System × Unit)
  | .write data stepSize steps =>
    .ok ({ s with producer := s.producer.call data stepSize steps }, ())
  | .produce => (s.produce v).map (·, ())
  | .read data stepSize steps =>
    .ok ({ s with consumer := s.consumer.call data stepSize steps }, ())
  | .consume => (s.consume v).map (·, ())

/-! ### The bytes under way -/

/-- The bytes written and not yet received lie in the ring from the read position on. A side
that has passed its check is inside its part of the buffer until it moves its position. -/
structure System.Holds (v : View) (s : System) (pending : List UInt8) : Prop where
  counts : s.ring.Counts v s.received.length s.written.length
  written_eq : s.written = s.received ++ pending
  window_eq : window s.ring.buf v.size.toNat s.received.length pending.length = pending
  room : ∀ c, s.producer = .copying c ∨ s.producer = .publishing c →
    pending.length + c.stepSize.toNat < v.size.toNat
  copied_in : ∀ c, s.producer = .publishing c →
    window s.ring.buf v.size.toNat s.written.length c.stepSize.toNat = c.bytes
  content : ∀ c, s.consumer = .copying c ∨ s.consumer = .publishing c →
    c.stepSize.toNat ≤ pending.length
  copied_out : ∀ c, s.consumer = .publishing c → pending.take c.stepSize.toNat = c.bytes

namespace System.Holds

variable {v : View} {s : System} {pending : List UInt8}

section

variable (h : s.Holds v pending)

include h

theorem length_written :
    s.written.length = s.received.length + pending.length := by
  rw [h.written_eq, length_append]

theorem length_lt : pending.length < v.size.toNat := by
  have := h.counts.lt
  rw [h.length_written] at this
  omega

theorem withProducer {t : Thread} (hcopying : ∀ c, t ≠ .copying c)
    (hpublishing : ∀ c, t ≠ .publishing c) : ({ s with producer := t } : System).Holds v pending :=
  { h with
    room := fun c hc => (hc.elim (hcopying c) (hpublishing c)).elim
    copied_in := fun c hc => (hpublishing c hc).elim }

theorem withConsumer {t : Thread} (hcopying : ∀ c, t ≠ .copying c)
    (hpublishing : ∀ c, t ≠ .publishing c) : ({ s with consumer := t } : System).Holds v pending :=
  { h with
    content := fun c hc => (hc.elim (hcopying c) (hpublishing c)).elim
    copied_out := fun c hc => (hpublishing c hc).elim }

end

variable {c : Call}

section

variable (h : s.Holds v pending)

include h

theorem granted (hroom : s.ring.canWrite v c.stepSize = true) :
    ({ s with producer := .copying c } : System).Holds v pending :=
  { h with
    room := fun c' hc' => by
      obtain rfl : c = c' := by simpa using hc'
      have := (h.counts.canWrite_iff c.stepSize).mp hroom
      rw [h.length_written] at this
      omega
    copied_in := fun c' hc' => by cases hc' }

theorem offered (hroom : s.ring.canRead v c.stepSize = true) :
    ({ s with consumer := .copying c } : System).Holds v pending :=
  { h with
    content := fun c' hc' => by
      obtain rfl : c = c' := by simpa using hc'
      have := (h.counts.canRead_iff c.stepSize).mp hroom
      rw [h.length_written] at this
      omega
    copied_out := fun c' hc' => by cases hc' }

theorem copyIn (hc : s.producer = .copying c) :
    ∃ ring, s.ring.copyIn v c.data c.offset c.stepSize = .ok ring ∧
      ({ s with ring := ring, producer := .publishing c } : System).Holds v pending := by
  have hroom := h.room c (.inl hc)
  refine ⟨_, Ring.copyIn_eq h.counts.writePos_eq c.data c.offset (by omega), ?_⟩
  have hbytes : (takeCells c.data c.offset c.stepSize.toNat).length = c.stepSize.toNat :=
    length_takeCells _ _ _
  constructor
  case counts => exact ⟨h.counts.readPos_eq, h.counts.writePos_eq, h.counts.le, h.counts.lt⟩
  case written_eq => exact h.written_eq
  case window_eq =>
    rw [h.length_written, window_putRing_before (by omega), h.window_eq]
  case room =>
    intro c' hc'
    obtain rfl : c = c' := by simpa using hc'
    exact hroom
  case copied_in =>
    intro c' hc'
    obtain rfl : c = c' := by simpa using hc'
    have hput : window (putRing v.size.toNat s.ring.buf s.written.length c.bytes) v.size.toNat
        s.written.length c.bytes.length = c.bytes := window_putRing (by rw [c.length_bytes]; omega)
    rwa [c.length_bytes] at hput
  case content => exact h.content
  case copied_out => exact h.copied_out

theorem publishWrite (hc : s.producer = .publishing c) : ({ s with
      ring := s.ring.advanceWrite c.stepSize
      producer := .checking c.next
      written := s.written ++ c.bytes } : System).Holds v (pending ++ c.bytes) := by
  have hroom := h.room c (.inr hc)
  constructor
  case counts =>
    rw [length_append, c.length_bytes]
    apply h.counts.advanceWrite
    rw [h.length_written]
    omega
  case written_eq =>
    rw [h.written_eq, append_assoc]
  case window_eq =>
    dsimp only [Ring.advanceWrite]
    rw [length_append, window_append, h.window_eq, ← h.length_written, c.length_bytes,
      h.copied_in c hc]
  case room =>
    intro c' hc'
    simp at hc'
  case copied_in =>
    intro c' hc'
    cases hc'
  case content =>
    intro c' hc'
    rw [length_append]
    exact (h.content c' hc').trans (Nat.le_add_right _ _)
  case copied_out =>
    intro c' hc'
    rw [take_append_of_le_length (h.content c' (.inr hc'))]
    exact h.copied_out c' hc'

theorem copyOut (hc : s.consumer = .copying c) :
    ∃ data, s.ring.copyOut v c.data c.offset c.stepSize = .ok data ∧
      ({ s with consumer := .publishing { c with data := data } } : System).Holds v pending := by
  have hcontent := h.content c (.inl hc)
  have hlt := h.length_lt
  refine ⟨_, Ring.copyOut_eq h.counts.readPos_eq c.data c.offset (by omega), ?_⟩
  constructor
  case counts => exact h.counts
  case written_eq => exact h.written_eq
  case window_eq => exact h.window_eq
  case room => exact h.room
  case copied_in => exact h.copied_in
  case content =>
    intro c' hc'
    obtain rfl : _ = c' := by simpa using hc'
    exact hcontent
  case copied_out =>
    intro c' hc'
    obtain rfl : _ = c' := by simpa using hc'
    have hfront := window_append s.ring.buf v.size.toNat s.received.length c.stepSize.toNat
      (pending.length - c.stepSize.toNat)
    rw [Nat.add_sub_cancel' hcontent, h.window_eq] at hfront
    have htake := takeCells_putCells c.data c.offset
      (window s.ring.buf v.size.toNat s.received.length c.stepSize.toNat)
    rw [length_window] at htake
    rw [Call.bytes]
    dsimp only [Call.offset] at htake ⊢
    rw [htake, hfront, take_left' (length_window _ _ _ _)]

theorem publishRead (hc : s.consumer = .publishing c) : ({ s with
      ring := s.ring.advanceRead c.stepSize
      consumer := .checking c.next
      received := s.received ++ c.bytes } : System).Holds v (pending.drop c.stepSize.toNat) := by
  have hcontent := h.content c (.inr hc)
  have hsplit : pending = c.bytes ++ pending.drop c.stepSize.toNat := by
    rw [← h.copied_out c hc, take_append_drop]
  have hlen : pending.length = c.stepSize.toNat + (pending.drop c.stepSize.toNat).length := by
    rw [length_drop]
    omega
  constructor
  case counts =>
    rw [length_append, c.length_bytes]
    apply h.counts.advanceRead
    rw [h.length_written]
    omega
  case written_eq =>
    rw [append_assoc, ← hsplit, h.written_eq]
  case window_eq =>
    have hwin := h.window_eq.trans hsplit
    rw [hlen, window_append] at hwin
    rw [length_append, c.length_bytes]
    exact (append_inj hwin (by simp)).2
  case room =>
    intro c' hc'
    have := h.room c' hc'
    omega
  case copied_in => exact h.copied_in
  case content =>
    intro c' hc'
    simp at hc'
  case copied_out =>
    intro c' hc'
    cases hc'

end

end System.Holds

/-! ### Runs -/

section Runs

variable {v : View} {s : System} {pending : List UInt8}

theorem System.Holds.produce (h : s.Holds v pending) :
    ∃ s', s.produce v = .ok s' ∧ ∃ pending', s'.Holds v pending' := by
  unfold System.produce
  cases hp : s.producer with
  | idle => exact ⟨s, rfl, pending, h⟩
  | checking c =>
    dsimp only
    split_ifs with hroom
    · exact ⟨_, rfl, pending, h.granted hroom.2⟩
    · exact ⟨_, rfl, pending, h.withProducer (by simp) (by simp)⟩
  | copying c =>
    obtain ⟨ring, hring, h'⟩ := h.copyIn hp
    refine ⟨_, ?_, pending, h'⟩
    simp only [hring, Checked.ok_bind, Checked.pure_eq_ok]
  | publishing c => exact ⟨_, rfl, _, h.publishWrite hp⟩

theorem System.Holds.consume (h : s.Holds v pending) :
    ∃ s', s.consume v = .ok s' ∧ ∃ pending', s'.Holds v pending' := by
  unfold System.consume
  cases hp : s.consumer with
  | idle => exact ⟨s, rfl, pending, h⟩
  | checking c =>
    dsimp only
    split_ifs with hroom
    · exact ⟨_, rfl, pending, h.offered hroom.2⟩
    · exact ⟨_, rfl, pending, h.withConsumer (by simp) (by simp)⟩
  | copying c =>
    obtain ⟨data, hdata, h'⟩ := h.copyOut hp
    refine ⟨_, ?_, pending, h'⟩
    simp only [hdata, Checked.ok_bind, Checked.pure_eq_ok]
  | publishing c => exact ⟨_, rfl, _, h.publishRead hp⟩

open Thread

theorem System.Holds.callProducer (h : s.Holds v pending) (data : ℕ → UInt8)
    (stepSize steps : UInt32) :
    ({ s with producer := s.producer.call data stepSize steps } : System).Holds v pending := by
  cases hp : s.producer with
  | idle => exact h.withProducer (by simp [call]) (by simp [call])
  | checking c => simpa only [call, ← hp] using h
  | copying c => simpa only [call, ← hp] using h
  | publishing c => simpa only [call, ← hp] using h

theorem System.Holds.callConsumer (h : s.Holds v pending) (data : ℕ → UInt8)
    (stepSize steps : UInt32) :
    ({ s with consumer := s.consumer.call data stepSize steps } : System).Holds v pending := by
  cases hp : s.consumer with
  | idle => exact h.withConsumer (by simp [call]) (by simp [call])
  | checking c => simpa only [call, ← hp] using h
  | copying c => simpa only [call, ← hp] using h
  | publishing c => simpa only [call, ← hp] using h

theorem step_holds (v : View) (s : System) (e : Event) (h : ∃ pending, s.Holds v pending) :
    (step v s e).Ensures (fun p => ∃ pending, p.1.Holds v pending) fun _ => False := by
  obtain ⟨pending, h⟩ := h
  cases e with
  | write data stepSize steps => exact ⟨pending, h.callProducer data stepSize steps⟩
  | produce =>
    obtain ⟨s', hs', h'⟩ := h.produce
    rw [step, hs']
    exact h'
  | read data stepSize steps => exact ⟨pending, h.callConsumer data stepSize steps⟩
  | consume =>
    obtain ⟨s', hs', h'⟩ := h.consume
    rw [step, hs']
    exact h'

theorem System.Holds.init (v : View) (buf : ℕ → UInt8) : (System.init buf).Holds v [] where
  counts := ⟨rfl, rfl, le_rfl, v.size_pos⟩
  written_eq := rfl
  window_eq := rfl
  room c hc := by simp [System.init] at hc
  copied_in c hc := by cases hc
  content c hc := by simp [System.init] at hc
  copied_out c hc := by cases hc

/-- **The transfer theorem.** For every buffer size and every interleaving of the actions of
one producer and one consumer, with any step sizes and step counts: no copy leaves the
buffer, the bytes received are the first of the bytes written, and the distance of the two
counters, which may have wrapped any number of times, is the number of the others, which is
less than the size. -/
theorem received_in_order (v : View) (buf : ℕ → UInt8) (es : List Event) :
    (run (step v) (System.init buf) es).2.Ensures
      (fun s => s.received <+: s.written ∧
        (s.ring.writePos - s.ring.readPos).toNat = s.written.length - s.received.length ∧
        s.written.length - s.received.length ≤ v.size.toNat - 1)
      fun _ => False := by
  have hrun : (run (step v) (System.init buf) es).2.Ensures
      (fun s => ∃ pending, s.Holds v pending) fun _ => False :=
    run_invariant_always (step_holds v) es _ ⟨[], .init v buf⟩
  apply hrun.mono
  rintro s ⟨pending, h⟩
  have hlen := h.length_written
  have hlt := h.length_lt
  refine ⟨⟨pending, h.written_eq.symm⟩, ?_, by omega⟩
  have hsize := v.size.toNat_lt
  rw [h.counts.writePos_eq, h.counts.readPos_eq, ← UInt32.ofNat_sub h.counts.le,
    UInt32.toNat_ofNat', Nat.mod_eq_of_lt (by omega)]

end Runs

end AndroidEmu.RingBuffer
