import AndroidEmu.CS.Memory
import AndroidEmu.CS.Ring

/-!
# The event queue of the goldfish events device

`goldfish_events_common.c` keeps events of three words in a ring between the indices `first` and
`last`. With exactly three free places the accepted event fills the ring, the indices meet, and the
queue reads as empty.
-/

namespace AndroidEmu.Events

open CS Checked List Nat

/-! ### The device -/

def maxEvents : ℕ := 4096 * 4

def evMax : ℤ := 0x1f

def regRead : ℕ := 0x00
def regSetPage : ℕ := 0x00
def regLen : ℕ := 0x04
def regData : ℕ := 0x08

def pageName : ℤ := 0x00000
def pageEvbits : ℤ := 0x10000
/-- `0x20000 | EV_ABS`. -/
def pageAbsdata : ℤ := 0x20003

/-- What the device knows about the guest's driver. -/
inductive DriverState
  | init
  | buffered
  | live
  deriving DecidableEq, Repr

/-- `GoldfishEvDevState`. The interrupt line is its level; `eventsDropped` is the global
counter of events dropped in a row. -/
structure EvDev where
  page : ℤ
  events : ℕ → UInt32
  first : ℕ
  last : ℕ
  state : DriverState
  irq : Bool
  name : List UInt8
  evBits : ℕ → List UInt8
  absInfo : List Int32
  eventsDropped : ℕ

namespace EvDev

/-- `get_page_len`. -/
def getPageLen (d : EvDev) : ℤ :=
  if d.page = pageName then wrapInt d.name.length
  else if pageEvbits ≤ d.page ∧ d.page ≤ pageEvbits + evMax then
    wrapInt (d.evBits (d.page - pageEvbits).toNat).length
  else if d.page = pageAbsdata then wrapInt (d.absInfo.length * 4)
  else 0

/-- An offset equal to the length passes the check; only the name has a byte there, its terminator.
-/
def getPageData (d : EvDev) (offset : ℕ) : Checked ℤ :=
  if offset > d.getPageLen then .ok 0
  else if d.page = pageName then do
    let c ← readAt (d.name ++ [0]) offset
    return c.toInt8.toInt
  else if pageEvbits ≤ d.page ∧ d.page ≤ pageEvbits + evMax then do
    let b ← readAt (d.evBits (d.page - pageEvbits).toNat) offset
    return b.toNat
  else if d.page = pageAbsdata then do
    let v ← readAt d.absInfo (offset / 4)
    return v.toInt
  else .ok 0

/-- `dequeue_event`; the flag says whether the device is built for `TARGET_I386`. -/
def dequeueEvent (i386 : Bool) (d : EvDev) : Checked (EvDev × UInt32) :=
  if d.first = d.last then .ok (d, 0)
  else if maxEvents ≤ d.first then .error .outOfBounds
  else
    let n := d.events d.first
    let d := { d with first := (d.first + 1) &&& (maxEvents - 1) }
    if d.first = d.last then .ok ({ d with irq := false }, n)
    -- edge-triggered interrupts: raised again for the next event
    else if i386 ∧ ((d.first + 2) &&& (maxEvents - 1) < d.last ∨
        d.first &&& (maxEvents - 1) > d.last) then
      .ok ({ d with irq := true }, n)
    else .ok (d, n)

/-- The number of words in the queue, as the device computes it. -/
def enqueued (d : EvDev) : ℤ :=
  let n := wrapInt (d.last - d.first)
  if n < 0 then n + maxEvents else n

/-- Store a word at `last` and move `last` on. -/
def putWord (d : EvDev) (w : UInt32) : Checked EvDev :=
  if d.last < maxEvents then
    .ok { d with
      events := Function.update d.events d.last w
      last := (d.last + 1) &&& (maxEvents - 1) }
  else .error .outOfBounds

/-- A live driver is interrupted; otherwise the event waits until the driver is. -/
def signal (d : EvDev) : EvDev :=
  if d.state = .live then { d with irq := true } else { d with state := .buffered }

/-- `goldfish_enqueue_event`. -/
def enqueueEvent (d : EvDev) (type code : UInt32) (value : Int32) : Checked EvDev :=
  if d.enqueued + 3 > maxEvents then .ok { d with eventsDropped := d.eventsDropped + 1 }
  else do
    let d := { d with eventsDropped := 0 }.signal
    let d ← d.putWord type
    let d ← d.putWord code
    d.putWord value.toUInt32

/-- The driver's read of the length of the axis data is the sign that it is ready for interrupts. -/
def eventsRead (i386 : Bool) (d : EvDev) (offset : ℕ) : Checked (EvDev × UInt64) := do
  let d :=
    if offset = regLen ∧ d.page = pageAbsdata then
      { d with irq := d.irq || decide (d.state = .buffered), state := .live }
    else d
  if offset = regRead then
    let (d, n) ← d.dequeueEvent i386
    return (d, n.toUInt64)
  else if offset = regLen then return (d, .ofBitVec (.ofInt 64 d.getPageLen))
  else if regData ≤ offset then
    let v ← d.getPageData (offset - regData)
    return (d, .ofBitVec (.ofInt 64 v))
  else return (d, 0)

/-- `goldfish_events_write`. -/
def eventsWrite (d : EvDev) (offset : ℕ) (val : ℕ) : EvDev :=
  if offset = regSetPage then { d with page := wrapInt val } else d

end EvDev

/-! ### Runs -/

/-- What happens to the queue: the user interface enqueues an event, or the guest reads the
event register, the page length or sets the page. -/
inductive Event
  | enqueue (type code : UInt32) (value : Int32)
  | readEvent
  | readLen
  | setPage (val : ℕ)
  deriving DecidableEq, Repr

/-- What is seen of an event: whether `goldfish_event_drop_count` is zero after it, or the
word read. -/
inductive Output
  | enqueued (accepted : Bool)
  | word (w : UInt64)
  | silent
  deriving DecidableEq, Repr

def step (i386 : Bool) (d : EvDev) : Event → Checked (EvDev × Output)
  | .enqueue type code value => do
    let d ← d.enqueueEvent type code value
    return (d, .enqueued (d.eventsDropped = 0))
  | .readEvent => do
    let (d, w) ← d.eventsRead i386 regRead
    return (d, .word w)
  | .readLen => do
    let (d, _) ← d.eventsRead i386 regLen
    return (d, .silent)
  | .setPage val => return (d.eventsWrite regSetPage val, .silent)

def words (type code : UInt32) (value : Int32) : List UInt32 := [type, code, value.toUInt32]

/-- One step of a queue of words with room for `maxEvents`. An event is dropped only when fewer than
three places are free. -/
def Fifo.step (xs : List UInt32) : Event → Checked (List UInt32 × Output)
  | .enqueue type code value =>
    if xs.length + 3 ≤ maxEvents then .ok (xs ++ words type code value, .enqueued true)
    else .ok (xs, .enqueued false)
  | .readEvent =>
    match xs with
    | [] => .ok ([], .word 0)
    | x :: xs => .ok (xs, .word x.toUInt64)
  | .readLen => .ok (xs, .silent)
  | .setPage _ => .ok (xs, .silent)

/-! ### The ring holds the queue -/

theorem and_mask (n : ℕ) : n &&& (maxEvents - 1) = n % maxEvents :=
  and_two_pow_sub_one_eq_mod n 14

@[simp] theorem EvDev.eventsDropped_signal (d : EvDev) :
    d.signal.eventsDropped = d.eventsDropped := by
  unfold signal
  split_ifs
  · rfl
  · rfl

/-- The words between `first` and `last`, at least one place free. -/
structure EvDev.Holds (d : EvDev) (xs : List UInt32) : Prop where
  first_lt : d.first < maxEvents
  length_lt : xs.length < maxEvents
  last_eq : d.last = (d.first + xs.length) % maxEvents
  window_eq : window d.events maxEvents d.first xs.length = xs

namespace EvDev.Holds

variable {d d' : EvDev} {xs : List UInt32}

section

variable (h : d.Holds xs)

include h

theorem last_lt : d.last < maxEvents := by
  rw [h.last_eq]
  exact mod_lt _ (by decide)

theorem congr (hevents : d'.events = d.events) (hfirst : d'.first = d.first)
    (hlast : d'.last = d.last) : d'.Holds xs := by
  constructor
  · rw [hfirst]; exact h.first_lt
  · exact h.length_lt
  · rw [hlast, hfirst]; exact h.last_eq
  · rw [hevents, hfirst]; exact h.window_eq

theorem signal : d.signal.Holds xs := by
  unfold EvDev.signal
  split_ifs
  · exact h.congr rfl rfl rfl
  · exact h.congr rfl rfl rfl

theorem first_eq_last_iff : d.first = d.last ↔ xs = [] := by
  rw [h.last_eq]
  constructor
  · intro heq
    by_contra hne
    have hpos := length_pos_iff.mpr hne
    have hlen := h.length_lt
    apply mod_ne_of_lt (n := maxEvents) (i := d.first) (j := d.first + xs.length) (by omega)
      (by omega)
    rw [mod_eq_of_lt h.first_lt]
    exact heq
  · rintro rfl
    exact (mod_eq_of_lt h.first_lt).symm

theorem enqueued_eq : d.enqueued = xs.length := by
  have hfirst := h.first_lt
  have hlast := h.last_lt
  have hlen := h.length_lt
  have hlast_eq := h.last_eq
  simp only [maxEvents] at hfirst hlast hlen hlast_eq
  have hwrap : wrapInt ((d.last : ℤ) - d.first) = d.last - d.first :=
    wrapInt_of_bounds (by omega) (by omega)
  simp only [enqueued, hwrap, maxEvents]
  split_ifs with hneg <;> omega

theorem putWord (w : UInt32) (hroom : xs.length + 1 < maxEvents) :
    ∃ d', d.putWord w = .ok d' ∧ d'.Holds (xs ++ [w]) ∧ d'.eventsDropped = d.eventsDropped := by
  refine ⟨_, if_pos h.last_lt, ?_, rfl⟩
  have hput : Function.update d.events d.last w =
      putRing maxEvents d.events (d.first + xs.length) [w] := by
    rw [h.last_eq]
    rfl
  constructor
  · exact h.first_lt
  · simpa using hroom
  · rw [and_mask, h.last_eq, mod_add_mod]
    simp [add_assoc]
  · rw [hput, length_append, window_append, window_putRing_before (by simpa using hroom.le),
      h.window_eq, window_putRing (by simp [maxEvents])]

/-- With three free places an event is accepted, and two of its words leave the last place
free. -/
theorem enqueueEvent_eq (type code : UInt32) (value : Int32) (hroom : xs.length + 3 ≤ maxEvents) :
    ∃ d' : EvDev, d.enqueueEvent type code value = d'.putWord value.toUInt32 ∧
      d'.Holds (xs ++ [type, code]) ∧ d'.eventsDropped = 0 := by
  have h0 : ({ d with eventsDropped := 0 } : EvDev).Holds xs := h.congr rfl rfl rfl
  obtain ⟨d1, hd1, h1, hdrop1⟩ := h0.signal.putWord type (by omega)
  obtain ⟨d2, hd2, h2, hdrop2⟩ := h1.putWord code (by simp; omega)
  refine ⟨d2, ?_, ?_, ?_⟩
  · unfold EvDev.enqueueEvent
    rw [h.enqueued_eq, if_neg (by omega)]
    simp only [hd1, hd2, ok_bind]
  · simpa using h2
  · rw [hdrop2, hdrop1, eventsDropped_signal]

theorem enqueueEvent (type code : UInt32) (value : Int32) (hroom : xs.length + 3 < maxEvents) :
    ∃ d', d.enqueueEvent type code value = .ok d' ∧
      d'.Holds (xs ++ words type code value) ∧ d'.eventsDropped = 0 := by
  obtain ⟨d2, heq, h2, hdrop2⟩ := h.enqueueEvent_eq type code value hroom.le
  obtain ⟨d3, hd3, h3, hdrop3⟩ := h2.putWord value.toUInt32 (by simp; omega)
  refine ⟨d3, heq.trans hd3, ?_, hdrop3.trans hdrop2⟩
  simpa [words] using h3

theorem enqueueEvent_fills (type code : UInt32) (value : Int32)
    (hroom : xs.length + 3 = maxEvents) :
    ∃ d', d.enqueueEvent type code value = .ok d' ∧ d'.first = d'.last ∧ d'.eventsDropped = 0 := by
  obtain ⟨d2, heq, h2, hdrop2⟩ := h.enqueueEvent_eq type code value hroom.le
  refine ⟨_, heq.trans (if_pos h2.last_lt), ?_, hdrop2⟩
  -- the last word goes one whole turn after the first
  rw [and_mask, h2.last_eq, mod_add_mod, length_append, length_cons,
    length_singleton, show d2.first + (xs.length + (1 + 1)) + 1 = d2.first + maxEvents by omega,
    add_mod_right, mod_eq_of_lt h2.first_lt]

theorem enqueueEvent_full (type code : UInt32) (value : Int32) (hfull : maxEvents < xs.length + 3) :
    d.enqueueEvent type code value = .ok { d with eventsDropped := d.eventsDropped + 1 } := by
  unfold EvDev.enqueueEvent
  rw [h.enqueued_eq, if_pos (by omega)]

theorem dequeueEvent (i386 : Bool) :
    ∃ d', d.dequeueEvent i386 = .ok (d', xs.headD 0) ∧ d'.Holds xs.tail := by
  unfold EvDev.dequeueEvent
  cases xs with
  | nil =>
    rw [if_pos (h.first_eq_last_iff.mpr rfl)]
    exact ⟨d, rfl, h⟩
  | cons x xs =>
    have hne : d.first ≠ d.last := fun heq => cons_ne_nil _ _ (h.first_eq_last_iff.mp heq)
    have hwin := h.window_eq
    rw [length_cons, window_succ, mod_eq_of_lt h.first_lt] at hwin
    obtain ⟨hx, hxs⟩ := cons.inj hwin
    have hlen := h.length_lt
    rw [length_cons] at hlen
    have hrest : ({ d with first := (d.first + 1) &&& (maxEvents - 1) } : EvDev).Holds xs := by
      constructor
      · rw [and_mask]
        exact mod_lt _ (by decide)
      · omega
      · rw [and_mask, mod_add_mod, h.last_eq, length_cons]
        congr 1
        omega
      · rw [and_mask, window_mod (mod_mod _ _), hxs]
    rw [if_neg hne, if_neg (not_le.mpr h.first_lt), hx]
    -- the interrupt line differs, the queue does not
    dsimp only
    split_ifs
    · exact ⟨_, rfl, hrest.congr rfl rfl rfl⟩
    · exact ⟨_, rfl, hrest.congr rfl rfl rfl⟩
    · exact ⟨_, rfl, hrest⟩

theorem eventsWrite (offset val : ℕ) : (d.eventsWrite offset val).Holds xs := by
  unfold EvDev.eventsWrite
  split_ifs
  · exact h.congr rfl rfl rfl
  · exact h

end

end EvDev.Holds

/-! ### Device and queue agree -/

/-- An event does not arrive when exactly three places are free. -/
def SparesLastPlace (d : EvDev) : Event → Prop
  | .enqueue _ _ _ => d.enqueued + 3 ≠ maxEvents
  | _ => True

variable {xs : List UInt32}

theorem enqueue_refines (i386 : Bool) {d : EvDev} (h : d.Holds xs)
    (type code : UInt32) (value : Int32) (hspare : xs.length + 3 ≠ maxEvents) :
    Checked.Rel (fun p q => EvDev.Holds p.1 q.1 ∧ p.2 = q.2)
      (step i386 d (.enqueue type code value)) (Fifo.step xs (.enqueue type code value)) := by
  by_cases hroom : xs.length + 3 ≤ maxEvents
  · obtain ⟨d', hd', h', hdrop⟩ := h.enqueueEvent type code value (by omega)
    simp only [step, hd', Fifo.step, if_pos hroom, hdrop, ok_bind, pure_eq_ok]
    exact .ok ⟨h', rfl⟩
  · simp only [step, h.enqueueEvent_full type code value (by omega), Fifo.step, if_neg hroom,
      ok_bind, pure_eq_ok]
    exact .ok ⟨h.congr rfl rfl rfl, by simp⟩

theorem readEvent_refines (i386 : Bool) {d : EvDev} (h : d.Holds xs) :
    Checked.Rel (fun p q => EvDev.Holds p.1 q.1 ∧ p.2 = q.2)
      (step i386 d .readEvent) (Fifo.step xs .readEvent) := by
  obtain ⟨d', hd', h'⟩ := h.dequeueEvent i386
  have hread : d.eventsRead i386 regRead = .ok (d', (xs.headD 0).toUInt64) := by
    simp [EvDev.eventsRead, hd', regRead, regLen]
  simp only [step, hread, ok_bind, pure_eq_ok]
  cases xs with
  | nil => exact .ok ⟨h', rfl⟩
  | cons x xs => exact .ok ⟨h', rfl⟩

theorem readLen_refines (i386 : Bool) {d : EvDev} (h : d.Holds xs) :
    Checked.Rel (fun p q => EvDev.Holds p.1 q.1 ∧ p.2 = q.2)
      (step i386 d .readLen) (Fifo.step xs .readLen) := by
  refine .ok ⟨?_, rfl⟩
  split_ifs
  · exact h.congr rfl rfl rfl
  · exact h

theorem step_refines (i386 : Bool) (d : EvDev) (xs : List UInt32) (e : Event) (h : d.Holds xs)
    (hspare : SparesLastPlace d e) :
    Checked.Rel (fun p q => EvDev.Holds p.1 q.1 ∧ p.2 = q.2) (step i386 d e) (Fifo.step xs e) := by
  cases e with
  | enqueue type code value =>
    rw [SparesLastPlace, h.enqueued_eq] at hspare
    exact enqueue_refines i386 h type code value (by exact_mod_cast hspare)
  | readEvent => exact readEvent_refines i386 h
  | readLen => exact readLen_refines i386 h
  | setPage val =>
    exact .ok ⟨h.eventsWrite regSetPage val, rfl⟩

theorem EvDev.Holds.nil {d : EvDev} (hfirst : d.first < maxEvents) (hlast : d.last = d.first) :
    d.Holds [] where
  first_lt := hfirst
  length_lt := by decide
  last_eq := by rw [hlast]; exact (mod_eq_of_lt hfirst).symm
  window_eq := rfl

/-- **The queue theorem.** In every run from an empty queue in which no event arrives when
exactly three places are free, the guest sees what a queue of words shows: every read
returns the next word of the accepted events, in order, or zero when there is none, and an
event is dropped, without a trace in the queue, only when fewer than three places are free. -/
theorem events_delivered_in_order (i386 : Bool) (d : EvDev) (hfirst : d.first < maxEvents)
    (hlast : d.last = d.first) (es : List Event) (h : Meets (step i386) SparesLastPlace d es) :
    trace (step i386) d es = trace Fifo.step [] es :=
  trace_eq_of_meets (step_refines i386) (EvDev.Holds.nil hfirst hlast) h

def EvDev.reset : EvDev where
  page := pageName
  events := fun _ => 0
  first := 0
  last := 0
  state := .init
  irq := false
  name := []
  evBits := fun _ => []
  absInfo := []
  eventsDropped := 0

theorem events_delivered_in_order_example :
    trace (step true) EvDev.reset [.enqueue 3 0x35 (-7), .readEvent, .readEvent, .readEvent,
        .readEvent] =
      ([.enqueued true, .word 3, .word 0x35, .word 0xfffffff9, .word 0], none) := by
  rw [events_delivered_in_order true EvDev.reset (by decide) rfl]
  · rfl
  · refine ⟨?_, fun d _ _ => meets_of_forall _ d ?_⟩
    · show EvDev.reset.enqueued + 3 ≠ maxEvents
      decide
    intro e he _
    obtain rfl : e = .readEvent := by simpa using he
    trivial

/-! ### A full ring -/

section Full

variable {i : Bool} {d : EvDev} {xs : List UInt32}

theorem EvDev.Holds.readEvent {x : UInt32} (h : d.Holds (x :: xs)) :
    ∃ d', step i d .readEvent = .ok (d', .word x.toUInt64) ∧ d'.Holds xs := by
  obtain ⟨⟨d', o⟩, hd', h', ho⟩ :=
    (step_refines i d (x :: xs) .readEvent h trivial).exists_ok_left rfl
  obtain rfl : o = .word x.toUInt64 := ho
  exact ⟨d', hd', h'⟩

theorem EvDev.Holds.enqueue_replicate (type code : UInt32) (value : Int32) (k : ℕ)
    (h : d.Holds xs) (hroom : xs.length + 3 * k < maxEvents) :
    ∃ d', (run (step i) d (.replicate k (.enqueue type code value))).2 = .ok d' ∧
      (run Fifo.step xs (.replicate k (.enqueue type code value))).2 =
        .ok (xs ++ (List.replicate k (words type code value)).flatten) ∧
      d'.Holds (xs ++ (List.replicate k (words type code value)).flatten) := by
  induction k generalizing d xs with
  | zero => exact ⟨d, rfl, by simp, by simpa using h⟩
  | succ k ih =>
    obtain ⟨d1, hd1, h1, -⟩ := h.enqueueEvent type code value (by omega)
    have hstep : step i d (.enqueue type code value) =
        .ok (d1, .enqueued (d1.eventsDropped = 0)) := by simp [step, hd1]
    have hfifo : Fifo.step xs (.enqueue type code value) =
        .ok (xs ++ words type code value, .enqueued true) := if_pos (by omega)
    obtain ⟨d', hd', hrun, h'⟩ := ih h1 (by simp [words]; omega)
    refine ⟨d', ?_, ?_, ?_⟩
    · rw [replicate_succ, run_cons_ok hstep, hd']
    · rw [replicate_succ, run_cons_ok hfifo, hrun]
      simp [replicate_succ]
    · simpa [replicate_succ] using h'

theorem flatten_words_succ (type code : UInt32) (value : Int32) (k : ℕ) :
    ∃ rest, (List.replicate (k + 1) (words type code value)).flatten =
      type :: code :: value.toUInt32 :: rest ∧ rest.length = 3 * k := by
  refine ⟨(List.replicate k (words type code value)).flatten, ?_, ?_⟩
  · simp [replicate_succ, words]
  · simp [words, mul_comm]

theorem Fifo.step_cons (x : UInt32) :
    Fifo.step (x :: xs) .readEvent = .ok (xs, .word x.toUInt64) := rfl

end Full

/-- 5461 events fill the ring up to one place; two words are read; one more event arrives. -/
def fillingScript : List Event :=
  .replicate 5461 (.enqueue 1 2 3) ++ [.readEvent, .readEvent, .enqueue 1 2 3]

/-- The last event of the script finds exactly three free places and is accepted. All
16384 places are then in use, the indices have met, and the guest reads an empty queue. -/
theorem full_queue_reads_empty : ∃ d xs, (run (step false) EvDev.reset fillingScript).2 = .ok d ∧
      (run Fifo.step [] fillingScript).2 = .ok xs ∧ xs.length = maxEvents ∧ d.first = d.last ∧
      step false d .readEvent = .ok (d, .word 0) ∧
      Fifo.step xs .readEvent = .ok (xs.tail, .word 3) := by
  have h0 : EvDev.reset.Holds [] := .nil (by decide) rfl
  obtain ⟨d1, hd1, hfifo, h1⟩ := h0.enqueue_replicate (i := false) 1 2 3 5461 (by decide)
  obtain ⟨rest, hrest, hlen⟩ := flatten_words_succ 1 2 3 5460
  rw [show Int32.toUInt32 3 = 3 from rfl] at hrest
  rw [nil_append, hrest] at hfifo h1
  obtain ⟨d2, hd2, h2⟩ := h1.readEvent (i := false)
  obtain ⟨d3, hd3, h3⟩ := h2.readEvent (i := false)
  have hfull : (3 :: rest).length + 3 = maxEvents := by
    rw [length_cons, hlen]
    rfl
  obtain ⟨d4, hd4, hmeet, hdrop⟩ := h3.enqueueEvent_fills 1 2 3 hfull
  have hstep : step false d3 (.enqueue 1 2 3) = .ok (d4, .enqueued true) := by
    simp [step, hd4, hdrop]
  have hfifo4 : Fifo.step (3 :: rest) (.enqueue 1 2 3) =
      .ok (3 :: rest ++ words 1 2 3, .enqueued true) := if_pos hfull.le
  refine ⟨d4, 3 :: rest ++ words 1 2 3, ?_, ?_, ?_, hmeet, ?_, rfl⟩
  · rw [fillingScript, run_append _ _ hd1, run_cons_ok hd2, run_cons_ok hd3, run_cons_ok hstep]
    rfl
  · rw [fillingScript, run_append _ _ hfifo, run_cons_ok (Fifo.step_cons 1),
      run_cons_ok (Fifo.step_cons 2), run_cons_ok hfifo4]
    rfl
  · rw [length_append]
    exact hfull
  · simp [step, EvDev.eventsRead, EvDev.dequeueEvent, regRead, regLen, hmeet]

end AndroidEmu.Events
