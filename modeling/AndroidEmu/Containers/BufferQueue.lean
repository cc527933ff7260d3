import AndroidEmu.CS.ByteStream
import AndroidEmu.CS.Memory
import AndroidEmu.CS.Ring

/-!
# Buffer queues

`aemu/base/containers/BufferQueue.h`: a vector used as a ring, `mCount` items from `mPos` on, which
grows in snapshot mode. It refines a list of items as long as `mPos + mCount`, the place of a new
item before it is taken back into the ring, fits an `int`.
-/

namespace AndroidEmu.Containers

open CS Checked List Nat

/-- `Timeout` is left to the blocking calls, which are not modelled. -/
inductive BufferQueueResult
  | ok
  | tryAgain
  | error
  deriving DecidableEq, Repr

/-- The calls. A push carries its item and by how many places the vector's capacity exceeds
what `reserve` asks for, should the queue grow. -/
inductive Call (α : Type)
  | tryPush (buffer : α) (spare : ℕ)
  | tryPop
  | close
  | setSnapshotMode (on : Bool)
  deriving DecidableEq, Repr

/-- What a call answers; a pop that succeeds also fills in the item. -/
inductive Reply (α : Type)
  | pushed (r : BufferQueueResult)
  | popped (r : BufferQueueResult) (buffer : Option α)
  | done
  deriving DecidableEq, Repr

variable {α : Type}

/-! ### The list of items -/

/-- What the queue is for: a list of items, the oldest first, with a number of places. -/
structure Fifo (α : Type) where
  items : List α
  capacity : ℕ
  closed : Bool
  snapshotMode : Bool

namespace Fifo

/-- An empty list with the given number of places. -/
def new (capacity : ℕ) : Fifo α := ⟨[], capacity, false, false⟩

def add (f : Fifo α) (x : α) : Fifo α := { f with items := f.items ++ [x] }

/-- At least twice the places. -/
def enlarge (f : Fifo α) (spare : ℕ) : Fifo α := { f with capacity := 2 * f.capacity + spare }

/-- A push is refused by a closed list, and put off by a full one unless it may grow. A pop
gives out the oldest item. -/
def step (f : Fifo α) : Call α → Checked (Fifo α × Reply α)
  | .tryPush x spare =>
    if f.closed then .ok (f, .pushed .error)
    else if f.items.length < f.capacity then .ok (f.add x, .pushed .ok)
    else if f.snapshotMode then .ok ((f.enlarge spare).add x, .pushed .ok)
    else .ok (f, .pushed .tryAgain)
  | .tryPop =>
    match f.items with
    | [] => .ok (f, .popped (if f.closed || f.snapshotMode then .error else .tryAgain) none)
    | x :: xs => .ok ({ f with items := xs }, .popped .ok (some x))
  | .close => .ok ({ f with closed := true }, .done)
  | .setSnapshotMode on => .ok ({ f with snapshotMode := on }, .done)

end Fifo

/-- The item of a push that was accepted. -/
def accepted : Call α × Reply α → Option α
  | (.tryPush x _, .pushed .ok) => some x
  | _ => none

/-- The item a pop gave out. -/
def delivered : Reply α → Option α
  | .popped .ok x => x
  | _ => none

/-! ### The queue -/

/-- The condition variables have no effect on the items. -/
structure BufferQueue (α : Type) where
  pos : ℤ
  count : ℤ
  closed : Bool
  snapshotMode : Bool
  buffers : List α

variable {c n i spare : ℕ}

namespace BufferQueue

variable [Inhabited α]

def new (capacity : ℕ) : BufferQueue α := ⟨0, 0, false, false, List.replicate capacity default⟩

/-- `(int)mBuffers.size()`. -/
def size (q : BufferQueue α) : ℤ := wrapInt q.buffers.length

/-- A place taken back into the ring. The subtraction is one of `size_t`s. -/
def wrapPos (q : BufferQueue α) (pos : ℤ) : ℤ :=
  if q.size ≤ pos then wrapInt (pos - q.buffers.length) else pos

/-- The vector's capacity after `reserve` is the one asked for or a larger one; what is left of it
after the two moves is filled with default items. -/
def grow (q : BufferQueue α) (spare : ℕ) : Checked (BufferQueue α) := do
  check (q.count = q.size)
  let last ← addInt q.pos q.count
  if q.buffers.length = 0 then .error .divideByZero
  let front := min last q.size
  let back := toUInt64 last % q.buffers.length
  if 0 ≤ q.pos ∧ q.pos ≤ front ∧ front ≤ q.buffers.length then
    let moved := (q.buffers.take front.toNat).drop q.pos.toNat ++ q.buffers.take back
    let capacity := 2 * q.buffers.length + spare
    return { q with
      buffers := moved ++ List.replicate (capacity - moved.length) default
      pos := 0 }
  else .error .outOfBounds

def put (q : BufferQueue α) (buffer : α) : Checked (BufferQueue α) := do
  let pos ← addInt q.pos q.count
  let pos := q.wrapPos pos
  if pos < 0 then .error .outOfBounds
  let buffers ← writeAt q.buffers pos.toNat buffer
  let count ← addInt q.count 1
  return { q with buffers := buffers, count := count }

/-- `BufferQueue::tryPushLocked`. -/
def tryPushLocked (q : BufferQueue α) (buffer : α) (spare : ℕ) :
    Checked (BufferQueue α × BufferQueueResult) :=
  if q.closed then .ok (q, .error)
  else if q.size ≤ q.count then
    if q.snapshotMode then do
      let q ← q.grow spare
      let q ← q.put buffer
      return (q, .ok)
    else .ok (q, .tryAgain)
  else do
    let q ← q.put buffer
    return (q, .ok)

/-- The item that is moved out leaves a value behind that is never read. -/
def tryPopLocked (q : BufferQueue α) : Checked (BufferQueue α × BufferQueueResult × Option α) :=
  if q.count = 0 then
    .ok (q, if q.closed || q.snapshotMode then .error else .tryAgain, none)
  else do
    if q.pos < 0 then .error .outOfBounds
    let buffer ← readAt q.buffers q.pos.toNat
    let pos ← addInt q.pos 1
    let count ← addInt q.count (-1)
    return ({ q with pos := q.wrapPos pos, count := count }, .ok, some buffer)

/-- `BufferQueue::closeLocked`. -/
def closeLocked (q : BufferQueue α) : BufferQueue α := { q with closed := true }

/-- `BufferQueue::setSnapshotModeLocked`. -/
def setSnapshotModeLocked (q : BufferQueue α) (on : Bool) : BufferQueue α :=
  { q with snapshotMode := on }

def step (q : BufferQueue α) : Call α → Checked (BufferQueue α × Reply α)
  | .tryPush x spare => do
    let (q, r) ← q.tryPushLocked x spare
    return (q, .pushed r)
  | .tryPop => do
    let (q, r, x) ← q.tryPopLocked
    return (q, .popped r x)
  | .close => .ok (q.closeLocked, .done)
  | .setSnapshotMode on => .ok (q.setSnapshotModeLocked on, .done)

/-- The numbers of an accepted push are `int`s: the place behind the last item, before it is taken
back into the ring, and the size of the vector if it grows. -/
def Fits (q : BufferQueue α) : Call α → Prop
  | .tryPush _ spare =>
    q.closed = false → (q.count = q.buffers.length → q.snapshotMode = true) →
      q.pos + q.count < 2 ^ 31 ∧
        (q.count = q.buffers.length → 2 * q.buffers.length + spare < 2 ^ 31)
  | _ => True

instance (q : BufferQueue α) : DecidablePred q.Fits
  | .tryPush _ _ => inferInstanceAs (Decidable (q.closed = false → _ → _ ∧ _))
  | .tryPop | .close | .setSnapshotMode _ => inferInstanceAs (Decidable True)

/-! ### The ring holds the list -/

def cell (q : BufferQueue α) (i : ℕ) : α := q.buffers.getD i default

/-- The queue holds the items of the list, from `mPos` on. -/
structure Holds (q : BufferQueue α) (f : Fifo α) : Prop where
  pos_nonneg : 0 ≤ q.pos
  pos_lt : q.pos < q.buffers.length
  small : q.buffers.length < 2 ^ 31
  count : q.count = f.items.length
  le_capacity : f.items.length ≤ f.capacity
  capacity : f.capacity = q.buffers.length
  closed : q.closed = f.closed
  snapshotMode : q.snapshotMode = f.snapshotMode
  items : window q.cell q.buffers.length q.pos.toNat f.items.length = f.items

theorem holds_new (hpos : 1 ≤ c) (hc : c < 2 ^ 31) :
    Holds (new c : BufferQueue α) (Fifo.new c) where
  pos_nonneg := le_rfl
  pos_lt := by
    simp only [new, length_replicate]
    omega
  small := by simpa only [new, length_replicate] using hc
  count := rfl
  le_capacity := zero_le c
  capacity := by simp only [Fifo.new, new, length_replicate]
  closed := rfl
  snapshotMode := rfl
  items := rfl

variable {q : BufferQueue α} {f : Fifo α}

section

variable (h : Holds q f)

include h

theorem Holds.bounds : 0 ≤ q.pos ∧ q.pos < q.buffers.length ∧
    q.buffers.length < 2 ^ 31 ∧ q.count = f.items.length ∧ f.items.length ≤ f.capacity ∧
    f.capacity = q.buffers.length :=
  ⟨h.pos_nonneg, h.pos_lt, h.small, h.count, h.le_capacity, h.capacity⟩

theorem Holds.size_eq : q.size = q.buffers.length :=
  wrapInt_of_bounds (by omega) (by have := h.small; omega)

theorem Holds.wrapPos_eq (hn : n < 2 * q.buffers.length) :
    q.wrapPos n = (n % q.buffers.length : ℕ) := by
  have hsmall := h.small
  unfold wrapPos
  rw [h.size_eq]
  split_ifs with hle
  · have hge : q.buffers.length ≤ n := by omega
    rw [mod_eq_sub_mod hge, mod_eq_of_lt (by omega), wrapInt_of_bounds (by omega) (by omega)]
    omega
  · rw [mod_eq_of_lt (by omega)]

omit h in
theorem cell_set (q : BufferQueue α) (hi : i < q.buffers.length) (x : α) :
    ({ q with buffers := q.buffers.set i x } : BufferQueue α).cell =
      Function.update q.cell i x := by
  funext j
  simp only [cell, getD_eq_getElem?_getD, getElem?_set, Function.update_apply]
  by_cases hij : i = j
  · subst hij
    simp [hi]
  · simp [hij, Ne.symm hij]

open Fifo

theorem Holds.put (hroom : f.items.length < f.capacity) (hsum : q.pos + q.count < 2 ^ 31) (x : α) :
    ∃ q', q.put x = .ok q' ∧ Holds q' (f.add x) ∧ q'.pos = q.pos := by
  obtain ⟨hlo, hhi, hsmall, hcount, -, hcap⟩ := h.bounds
  -- the place, as a natural number
  set n := q.pos.toNat + f.items.length with hn
  have hplace : q.pos + q.count = (n : ℤ) := by omega
  have hmod : n % q.buffers.length < q.buffers.length := mod_lt _ (by omega)
  refine ⟨{ q with
      buffers := q.buffers.set (n % q.buffers.length) x
      count := q.count + 1 }, ?_, ?_, rfl⟩
  · unfold BufferQueue.put
    rw [addInt_of_bounds (by omega) hsum, ok_bind, hplace, h.wrapPos_eq (by omega)]
    rw [if_neg (by omega), Int.toNat_natCast]
    rw [writeAt_of_lt hmod, ok_bind, addInt_of_bounds (by omega) (by omega)]
    rfl
  · have hlen : (q.buffers.set (n % q.buffers.length) x).length = q.buffers.length :=
      length_set
    refine ⟨hlo, by simpa only [hlen] using hhi, by simpa only [hlen] using hsmall, ?_, ?_, ?_,
      h.closed, h.snapshotMode, ?_⟩
    · simp only [add, length_append, length_singleton]
      omega
    · simp only [add, length_append, length_singleton]
      omega
    · simpa only [add, hlen] using hcap
    · -- one store of the ring: before it the old items, at it the new one
      have hcell := cell_set q hmod x
      have hput : Function.update q.cell (n % q.buffers.length) x =
          putRing q.buffers.length q.cell n [x] := rfl
      simp only [add, length_append, length_singleton, hlen]
      change window ({ q with buffers := q.buffers.set (n % q.buffers.length) x }).cell
        _ _ _ = _
      rw [hcell, hput, window_append, hn,
        window_putRing_before (by simp only [length_singleton]; omega), h.items]
      congr 1
      exact window_putRing (by simp only [length_singleton]; omega)

theorem Holds.grow (hfull : f.items.length = f.capacity) (hsum : q.pos + q.count < 2 ^ 31)
    (hspare : 2 * q.buffers.length + spare < 2 ^ 31) :
    ∃ q', q.grow spare = .ok q' ∧ Holds q' (f.enlarge spare) ∧ q'.pos = 0 ∧
      q'.count = q.count ∧ q'.closed = q.closed := by
  obtain ⟨hlo, hhi, -, hcount, -, hcap⟩ := h.bounds
  have hsize := h.size_eq
  obtain ⟨p, hp⟩ : ∃ p : ℕ, q.pos = p := Int.eq_ofNat_of_zero_le hlo
  have hlast : q.pos + q.count = ((p + q.buffers.length : ℕ) : ℤ) := by push_cast; omega
  -- the first move goes to the end of the vector, the second up to the head
  have hfront : min (((p + q.buffers.length : ℕ) : ℤ)) q.size = q.buffers.length := by
    rw [hsize]
    apply min_eq_right
    omega
  have hback : toUInt64 ((p + q.buffers.length : ℕ) : ℤ) % q.buffers.length = p := by
    have hcast := toUInt64_cast ((p + q.buffers.length : ℕ) : ℤ)
    rw [show toUInt64 ((p + q.buffers.length : ℕ) : ℤ) = p + q.buffers.length by omega,
      add_mod_right, mod_eq_of_lt (by omega)]
  set moved := q.buffers.drop p ++ q.buffers.take p with hmoved
  have hlen : moved.length = q.buffers.length := by
    simp only [hmoved, length_append, length_drop, length_take]
    omega
  refine ⟨{ q with
      buffers := moved ++ replicate (2 * q.buffers.length + spare - moved.length) default
      pos := 0 }, ?_, ?_, rfl, rfl, rfl⟩
  · unfold BufferQueue.grow
    rw [check_of (by rw [hsize]; omega), ok_bind,
      addInt_of_bounds (by omega) hsum, ok_bind, hlast, if_neg (by omega)]
    simp only [pure_eq_ok]
    rw [hfront, hback, if_pos (by omega), hp, Int.toNat_natCast, Int.toNat_natCast, take_length]
  · have hnew : (moved ++ replicate (2 * q.buffers.length + spare - moved.length)
        default).length = 2 * q.buffers.length + spare := by
      simp only [length_append, length_replicate]
      omega
    refine ⟨le_rfl, ?_, ?_, hcount, ?_, ?_, h.closed, h.snapshotMode, ?_⟩
    · rw [hnew]
      push_cast
      omega
    · rw [hnew]
      exact hspare
    · simp only [enlarge]
      omega
    · simp only [enlarge]
      rw [hnew, hcap]
    · have hitems := h.items
      rw [hp, hfull, hcap] at hitems
      have hrot := window_rotate q.buffers
        (replicate (2 * q.buffers.length + spare - moved.length) default)
        (show p ≤ q.buffers.length by omega) default
      simp only [enlarge]
      rw [hfull, hcap]
      exact hrot.trans hitems

theorem Holds.tryPopLocked {x : α} {xs : List α} (hx : f.items = x :: xs) :
    ∃ q', q.tryPopLocked = .ok (q', .ok, some x) ∧ Holds q' { f with items := xs } ∧
      q'.pos = q.wrapPos (q.pos + 1) ∧ q'.count = q.count - 1 ∧ q'.buffers = q.buffers ∧
      q'.closed = q.closed := by
  obtain ⟨hlo, hhi, hsmall, hcount, hle, hcap⟩ := h.bounds
  have hitems := h.items
  rw [hx, length_cons] at hcount hle hitems
  rw [window_succ] at hitems
  obtain ⟨hhead, htail⟩ := cons.inj hitems
  obtain ⟨p, hp⟩ : ∃ p : ℕ, q.pos = p := Int.eq_ofNat_of_zero_le hlo
  have hread : readAt q.buffers p = .ok x := by
    rw [hp, Int.toNat_natCast, mod_eq_of_lt (by omega)] at hhead
    have hlt : p < q.buffers.length := by omega
    rw [cell, getD_eq_getElem?_getD, getElem?_eq_getElem hlt, Option.getD_some] at hhead
    rw [readAt_eq_ok, getElem?_eq_getElem hlt, hhead]
  have hnext := h.wrapPos_eq (n := p + 1) (by omega)
  rw [show ((p + 1 : ℕ) : ℤ) = q.pos + 1 by rw [hp]; rfl] at hnext
  refine ⟨{ q with pos := q.wrapPos (q.pos + 1), count := q.count - 1 }, ?_, ?_, rfl, rfl, rfl, rfl⟩
  · unfold BufferQueue.tryPopLocked
    rw [if_neg (by omega), if_neg (by omega)]
    rw [hp, Int.toNat_natCast, hread, ok_bind, ← hp, addInt_of_bounds (by omega) (by omega),
      ok_bind, addInt_of_bounds (by omega) (by omega)]
    rfl
  · have hmod : (p + 1) % q.buffers.length < q.buffers.length := mod_lt _ (by omega)
    refine ⟨?_, ?_, hsmall, ?_, ?_, hcap, h.closed, h.snapshotMode, ?_⟩
    · dsimp only
      omega
    · dsimp only
      omega
    · dsimp only
      omega
    · dsimp only
      omega
    · dsimp only
      rw [hnext]
      rw [hp] at htail
      exact (window_mod (mod_mod _ _) q.cell xs.length).trans htail

theorem Holds.step (c : Call α) (hfits : q.Fits c) :
    Checked.Rel (fun s t => Holds s.1 t.1 ∧ s.2 = t.2) (q.step c) (f.step c) := by
  obtain ⟨hlo, hhi, -, hcount, hle, hcap⟩ := h.bounds
  cases c with
  | tryPush x spare =>
    simp only [BufferQueue.step, Fifo.step, BufferQueue.tryPushLocked, h.size_eq, ← h.closed,
      ← h.snapshotMode]
    by_cases hclosed : q.closed = true
    · simp only [hclosed, if_true, ok_bind, pure_eq_ok]
      exact .ok ⟨h, rfl⟩
    have hfits := hfits (by simpa using hclosed)
    rw [if_neg hclosed, if_neg hclosed]
    by_cases hroom : f.items.length < f.capacity
    · have hfits := hfits (by omega)
      obtain ⟨q', hput, hq', -⟩ := h.put hroom hfits.1 x
      rw [if_neg (by omega), if_pos hroom, hput]
      exact .ok ⟨hq', rfl⟩
    rw [if_pos (by omega), if_neg hroom]
    by_cases hmode : q.snapshotMode = true
    · -- the vector grows first, and then has room
      have hfits := hfits fun _ => hmode
      have hspare := hfits.2 (by omega)
      obtain ⟨q1, hgrow, hq1, hpos, hcount1, -⟩ := h.grow (by omega) hfits.1 hspare
      have hroom1 : (f.enlarge spare).items.length < (f.enlarge spare).capacity := by
        simp only [enlarge]
        omega
      obtain ⟨q', hput, hq', -⟩ := hq1.put hroom1 (by omega) x
      rw [if_pos hmode, if_pos hmode, hgrow, ok_bind, hput]
      exact .ok ⟨hq', rfl⟩
    · rw [if_neg hmode, if_neg hmode]
      exact .ok ⟨h, rfl⟩
  | tryPop =>
    cases hx : f.items with
    | nil =>
      simp only [BufferQueue.step, Fifo.step, BufferQueue.tryPopLocked, hx]
      rw [if_pos (by rw [hcount, hx]; rfl), ← h.closed, ← h.snapshotMode]
      exact .ok ⟨h, rfl⟩
    | cons x xs =>
      obtain ⟨q', hpop, hq', -⟩ := h.tryPopLocked hx
      simp only [BufferQueue.step, Fifo.step, hx, hpop]
      exact .ok ⟨hq', rfl⟩
  | close =>
    exact .ok ⟨{ h with closed := rfl }, rfl⟩
  | setSnapshotMode on =>
    exact .ok ⟨{ h with snapshotMode := rfl }, rfl⟩

end

def contents (q : BufferQueue α) : List α :=
  window q.cell q.buffers.length q.pos.toNat q.count.toNat

theorem Holds.contents_eq (h : Holds q f) : q.contents = f.items := by
  rw [contents, h.count, Int.toNat_natCast, h.items]

end BufferQueue

/-! ### Runs -/

/-- A call on the list always succeeds, and what it takes in and gives out accounts for the
items before and after it. -/
theorem Fifo.step_accepted (f : Fifo α) (c : Call α) : ∃ f' r, f.step c = .ok (f', r) ∧
      f.items ++ (accepted (c, r)).toList = (delivered r).toList ++ f'.items := by
  cases c with
  | tryPush x spare =>
    simp only [Fifo.step]
    split_ifs
    · exact ⟨_, _, rfl, append_nil _⟩
    · exact ⟨_, _, rfl, rfl⟩
    · exact ⟨_, _, rfl, rfl⟩
    · exact ⟨_, _, rfl, append_nil _⟩
  | tryPop =>
    cases hx : f.items with
    | nil =>
      refine ⟨f, _, by simp only [Fifo.step, hx]; rfl, ?_⟩
      rw [hx]
      split_ifs <;> rfl
    | cons x xs => exact ⟨_, _, by simp only [Fifo.step, hx]; rfl, append_nil _⟩
  | close => exact ⟨_, _, rfl, append_nil _⟩
  | setSnapshotMode on => exact ⟨_, _, rfl, append_nil _⟩

/-- What the list took in over a run is what it gave out, in this order, and what it still
has. -/
theorem Fifo.run_accepted (calls : List (Call α)) : ∀ f : Fifo α,
    ∃ f', (run Fifo.step f calls).2 = .ok f' ∧
      f.items ++ (calls.zip (run Fifo.step f calls).1).filterMap accepted =
        (run Fifo.step f calls).1.filterMap delivered ++ f'.items := by
  induction calls with
  | nil => exact fun f => ⟨f, rfl, append_nil _⟩
  | cons c calls ih =>
    intro f
    obtain ⟨f1, r, hstep, hone⟩ := f.step_accepted c
    obtain ⟨f', hrun, hrest⟩ := ih f1
    refine ⟨f', by rw [run_cons_ok hstep]; exact hrun, ?_⟩
    simp only [filterMap_eq_flatMap_toList] at hrest ⊢
    rw [run_cons_ok hstep, zip_cons_cons, flatMap_cons, flatMap_cons,
      ← append_assoc, hone, append_assoc, hrest, append_assoc]

variable [Inhabited α]

/-- The queue answers as the list does, and the items it accepted are those it delivered and those
it still holds, in this order. -/
def InOrder (capacity : ℕ) (calls : List (Call α)) : Prop :=
  trace BufferQueue.step (BufferQueue.new capacity) calls =
      trace Fifo.step (Fifo.new capacity) calls ∧
    ∃ q, (run BufferQueue.step (BufferQueue.new capacity) calls).2 = .ok q ∧
      (calls.zip (run BufferQueue.step (BufferQueue.new capacity) calls).1).filterMap accepted =
        (run BufferQueue.step (BufferQueue.new capacity) calls).1.filterMap delivered ++ q.contents

/-- As long as the numbers of its pushes are `int`s, the queue delivers the items it accepted in
their order, and turns items away as the list does. -/
theorem run_items_in_order (capacity : ℕ) (calls : List (Call α)) (hpos : 1 ≤ capacity)
    (hint : capacity < 2 ^ 31)
    (hfits : Meets BufferQueue.step BufferQueue.Fits (BufferQueue.new capacity) calls) :
    InOrder capacity calls := by
  have hnew := BufferQueue.holds_new (α := α) hpos hint
  have hstep : ∀ (q : BufferQueue α) f c, q.Holds f → q.Fits c →
      Checked.Rel (fun s t => BufferQueue.Holds s.1 t.1 ∧ s.2 = t.2) (q.step c) (f.step c) :=
    fun _ _ c h hfits => h.step c hfits
  refine ⟨trace_eq_of_meets hstep hnew hfits, ?_⟩
  obtain ⟨hout, hrel⟩ := run_simulation_of_meets hstep calls _ _ hnew hfits
  obtain ⟨f, hf, haccepted⟩ := Fifo.run_accepted calls (Fifo.new capacity)
  obtain ⟨q, hq, hholds⟩ := hrel.exists_ok_left hf
  refine ⟨q, hq, ?_⟩
  rw [hout, hholds.contents_eq]
  exact haccepted

/-- Two places, filled, turned by one and grown in snapshot mode. -/
theorem run_items_in_order_grown :
    InOrder 2 [.tryPush 1 0, .tryPush 2 0, .tryPush 3 0, .tryPop, .tryPush 4 0,
      .setSnapshotMode true, .tryPush 5 0, .tryPop, .tryPop, .close, .tryPush 6 0, .tryPop] :=
  run_items_in_order 2 _ (by decide) (by decide) (by decide +kernel)

/-! ### A vector of `INT_MAX` places -/

namespace BufferQueue

variable {q : BufferQueue α} {f : Fifo α}

theorem Holds.step_tryPush (h : Holds q f) (hopen : f.closed = false)
    (hroom : f.items.length < f.capacity) (hsum : q.pos + q.count < 2 ^ 31) (x : α) (spare : ℕ) :
    ∃ q', q.step (.tryPush x spare) = .ok (q', .pushed .ok) ∧ Holds q' (f.add x) ∧
      q'.pos = q.pos := by
  obtain ⟨q', hput, hq', hpos⟩ := h.put hroom hsum x
  refine ⟨q', ?_, hq', hpos⟩
  have hcount := h.count
  have hcap := h.capacity
  rw [BufferQueue.step, BufferQueue.tryPushLocked, h.closed, hopen, h.size_eq,
    if_neg Bool.false_ne_true, if_neg (by omega), hput]
  rfl

theorem Holds.fill (x : α) : ∀ (k : ℕ) {q : BufferQueue α} {f : Fifo α}, Holds q f →
    f.closed = false → q.pos = 0 → f.items.length + k ≤ f.capacity →
    ∃ q' f', (run BufferQueue.step q (replicate k (.tryPush x 0))).2 = .ok q' ∧ Holds q' f' ∧
      f'.closed = false ∧ q'.pos = 0 ∧ f'.capacity = f.capacity ∧
      f'.items.length = f.items.length + k := by
  intro k
  induction k with
  | zero => exact fun h hopen hpos _ => ⟨_, _, rfl, h, hopen, hpos, rfl, rfl⟩
  | succ k ih =>
    intro q f h hopen hpos hle
    have hsum : q.pos + q.count < 2 ^ 31 := by
      have := h.bounds
      omega
    obtain ⟨q1, hstep, h1, hpos1⟩ := h.step_tryPush hopen (by omega) hsum x 0
    have hlen : (f.add x).items.length = f.items.length + 1 := by
      simp only [Fifo.add, length_append, length_singleton]
    have hcap1 : (f.add x).capacity = f.capacity := rfl
    obtain ⟨q', f', hrun, h', hopen', hpos', hcap', hlen'⟩ :=
      ih h1 hopen (by rw [hpos1, hpos]) (by omega)
    refine ⟨q', f', ?_, h', hopen', hpos', hcap', by omega⟩
    rw [replicate_succ, run_cons_ok hstep]
    exact hrun

theorem Holds.step_tryPop (h : Holds q f) (hne : f.items ≠ [])
    (hnext : q.pos + 1 < q.buffers.length) :
    ∃ q' x, q.step .tryPop = .ok (q', .popped .ok (some x)) ∧
      Holds q' { f with items := f.items.tail } ∧ q'.pos = q.pos + 1 ∧
      q'.buffers.length = q.buffers.length := by
  obtain ⟨x, xs, hx⟩ := exists_cons_of_ne_nil hne
  obtain ⟨q', hpop, hq', hpos, -, hbuffers, -⟩ := h.tryPopLocked hx
  refine ⟨q', x, by simp only [BufferQueue.step, hpop]; rfl,
    by simpa only [hx, tail_cons] using hq', ?_, by rw [hbuffers]⟩
  rw [hpos, wrapPos, h.size_eq, if_neg (by omega)]

/-- A queue of as many places as an `int` counts is filled, gives out two items and takes one:
the place of the next one is no `int`. -/
theorem fill_pop_push_overflow (x : α) (hc : c + 1 = 2 ^ 31) :
    (run BufferQueue.step (new c) (replicate c (.tryPush x 0) ++
      [.tryPop, .tryPop, .tryPush x 0, .tryPush x 0])).2 = .error .overflow := by
  obtain ⟨q0, f0, hrun, h0, hopen, hpos0, hcap, hlen⟩ :=
    (holds_new (α := α) (show 1 ≤ c by omega) (by omega)).fill x c rfl rfl (by simp [Fifo.new])
  simp only [Fifo.new, length_nil, zero_add] at hcap hlen
  have hsize0 := h0.capacity
  have hne : f0.items ≠ [] := ne_nil_of_length_pos (by omega)
  obtain ⟨q1, x1, hstep1, h1, hpos1, hsize1⟩ := h0.step_tryPop hne (by omega)
  have hlen1 : f0.items.tail.length = c - 1 := by rw [length_tail, hlen]
  have hne1 : f0.items.tail ≠ [] := ne_nil_of_length_pos (by omega)
  obtain ⟨q2, x2, hstep2, h2, hpos2, hsize2⟩ := h1.step_tryPop hne1 (by omega)
  have hlen2 : f0.items.tail.tail.length = c - 2 := by rw [length_tail, hlen1]; omega
  have hcount2 := h2.count
  dsimp only at hcount2
  -- the third call puts the item into the first cell again
  obtain ⟨q3, hstep3, h3, hpos3⟩ :=
    h2.step_tryPush hopen (by dsimp only; omega) (by omega) x 0
  have hlen3 : (({ f0 with items := f0.items.tail.tail } : Fifo α).add x).items.length = c - 1 := by
    simp only [Fifo.add, length_append, length_singleton, hlen2]
    omega
  have hcount3 := h3.count
  have hsize3 := h3.capacity
  simp only [Fifo.add] at hsize3
  rw [hlen3] at hcount3
  have hsum : 2 ^ 31 ≤ q3.pos + q3.count := by omega
  have hstep4 : q3.step (.tryPush x 0) = .error .overflow := by
    rw [BufferQueue.step, BufferQueue.tryPushLocked, h3.closed, h3.size_eq,
      if_neg (by simpa [Fifo.add] using hopen), if_neg (by omega), BufferQueue.put,
      addInt_of_le hsum]
    rfl
  rw [run_append _ _ hrun, run_cons_ok hstep1, run_cons_ok hstep2, run_cons_ok hstep3,
    run_cons_error hstep4]

end BufferQueue

/-- A queue of `INT_MAX` bytes that is filled, emptied by two and filled again. -/
theorem full_range_overflows :
    ¬ InOrder (2 ^ 31 - 1) (List.replicate (2 ^ 31 - 1) (.tryPush (0 : UInt8) 0) ++
      [.tryPop, .tryPop, .tryPush 0 0, .tryPush 0 0]) := by
  rintro ⟨-, q, hq, -⟩
  have hfault := BufferQueue.fill_pop_push_overflow (0 : UInt8)
    (show (2 ^ 31 - 1) + 1 = 2 ^ 31 from rfl)
  rw [hq] at hfault
  cases hfault

/-! ### Snapshots -/

/-- How the items of an element type are saved and loaded. -/
structure Codec (α : Type) where
  saveBuffer : α → Bytes
  loadBuffer : Bytes → Option (α × Bytes)
  load_save : ∀ x rest, loadBuffer (saveBuffer x ++ rest) = some (x, rest)

namespace BufferQueue

variable {q t : BufferQueue α} {f g : Fifo α} {codec : Codec α}

/-- `BufferQueue::onSaveLocked`. -/
def onSaveLocked (codec : Codec α) (q : BufferQueue α) : Bytes :=
  if q.closed then [1]
  else 0 :: putBe 4 q.count.toNat ++ (List.range q.count.toNat).flatMap fun i =>
    codec.saveBuffer (q.cell ((i + q.pos.toNat) % q.buffers.length))

def loadItems (codec : Codec α) : (n i : ℕ) → List α → Bytes → List α × Bool
  | 0, _, buffers, _ => (buffers, true)
  | n + 1, i, buffers, bs =>
    match codec.loadBuffer bs with
    | none => (buffers, false)
    | some (x, bs) => loadItems codec n (i + 1) (buffers.set i x) bs

/-- `BufferQueue::onLoadLocked`. -/
def onLoadLocked (codec : Codec α) (q : BufferQueue α) (bs : Bytes) : BufferQueue α × Bool :=
  let closed := getByte bs
  if closed.1 ≠ 0 then ({ q with closed := true }, true)
  else
    let n := getBe 4 closed.2
    let count := wrapInt n.1
    let buffers := if q.size < count then
        q.buffers ++ List.replicate (count.toNat - q.buffers.length) default
      else q.buffers
    let r := loadItems codec count.toNat 0 buffers n.2
    ({ q with closed := false, count := count, pos := 0, buffers := r.1 }, r.2)

omit [Inhabited α] in
theorem loadItems_spec (post : List α) (rest : Bytes) (xs : List α) : ∀ pre ys : List α,
    ys.length = xs.length →
    loadItems codec xs.length pre.length (pre ++ (ys ++ post))
      (xs.flatMap codec.saveBuffer ++ rest) =
      (pre ++ (xs ++ post), true) := by
  induction xs with
  | nil =>
    intro pre ys hlen
    rw [length_eq_zero_iff.mp hlen]
    rfl
  | cons x xs ih =>
    intro pre ys hlen
    obtain ⟨y, ys, rfl⟩ := exists_cons_of_length_eq_add_one hlen
    have hnext := ih (pre ++ [x]) ys (by simpa using hlen)
    rw [length_append, length_singleton] at hnext
    simp only [length_cons, loadItems, flatMap_cons, append_assoc, codec.load_save]
    rw [cons_append, set_append_right _ _ le_rfl, Nat.sub_self, set_cons_zero]
    simpa using hnext

/-- An open queue takes over the items of another one, at the front of its vector. -/
theorem Holds.load (h : Holds q f) (codec) (hg : Holds t g) (hopen : q.closed = false) :
    ∃ capacity, Holds (t.onLoadLocked codec (q.onSaveLocked codec)).1
      ⟨f.items, capacity, false, g.snapshotMode⟩ := by
  obtain ⟨-, -, hsmall, hcount, hle, hcap⟩ := h.bounds
  have hbounds := hg.bounds
  have hlen : q.count.toNat = f.items.length := by omega
  have hitems : f.items.flatMap codec.saveBuffer = (range f.items.length).flatMap fun i =>
      codec.saveBuffer (q.cell ((i + q.pos.toNat) % q.buffers.length)) := by
    conv_lhs => rw [← h.items, window, flatMap_map]
    simp only [add_comm]
  have hsave : q.onSaveLocked codec =
      0 :: (putBe 4 f.items.length ++ (f.items.flatMap codec.saveBuffer ++ [])) := by
    rw [onSaveLocked, hopen, hlen, hitems, append_nil]
    rfl
  -- the vector is long enough for the items
  obtain ⟨ys, post, hvector, hys⟩ : ∃ ys post, (if t.size < (f.items.length : ℤ) then
        t.buffers ++ replicate (f.items.length - t.buffers.length) default
      else t.buffers) = ys ++ post ∧ ys.length = f.items.length := by
    refine ⟨_, _, (take_append_drop f.items.length _).symm, ?_⟩
    rw [length_take, hg.size_eq]
    split_ifs with hgrow
    · rw [length_append, length_replicate]
      omega
    · omega
  have hload : t.onLoadLocked codec (q.onSaveLocked codec) =
      ({ t with closed := false, count := f.items.length, pos := 0, buffers := f.items ++ post },
        true) := by
    have hread := getBe_putBe 4 (v := f.items.length) (by omega)
      (f.items.flatMap codec.saveBuffer ++ [])
    have hloop := @loadItems_spec _ codec post [] f.items [] ys hys
    rw [hsave, onLoadLocked]
    simp only [getByte, UInt8.toNat_zero, ne_eq, not_true_eq_false, if_false, hread,
      wrapInt_of_bounds (show (-2 ^ 31 : ℤ) ≤ f.items.length by omega) (by omega),
      Int.toNat_natCast, hvector]
    rw [length_nil, nil_append, nil_append] at hloop
    rw [hloop]
  have hbound : (f.items ++ post).length < 2 ^ 31 ∧ 0 < (f.items ++ post).length := by
    have hlength := congrArg length hvector
    rw [length_append, hys, hg.size_eq] at hlength
    rw [length_append, ← hlength]
    split_ifs with hgrow
    · rw [length_append, length_replicate]
      omega
    · omega
  refine ⟨(f.items ++ post).length, ?_⟩
  rw [hload]
  refine ⟨le_rfl, ?_, hbound.1, rfl, ?_, rfl, rfl, hg.snapshotMode, ?_⟩
  · dsimp only
    omega
  · rw [length_append]
    exact le_add_right _ _
  · refine ext_getElem (length_window _ _ _ _) fun i _ hi => ?_
    have hi : i < f.items.length := hi
    have hfront : i < (f.items ++ post).length := by
      rw [length_append]
      omega
    simp only [window, getElem_map, getElem_range, Int.toNat_zero, zero_add,
      mod_eq_of_lt hfront, cell]
    rw [getD_eq_getElem?_getD, getElem?_append_left hi, getElem?_eq_getElem hi, Option.getD_some]

theorem Holds.pops (n : ℕ) : ∀ {q : BufferQueue α} {f : Fifo α}, Holds q f →
    (run BufferQueue.step q (replicate n .tryPop)).1.filterMap delivered = f.items.take n := by
  induction n with
  | zero => exact fun _ => rfl
  | succ n ih =>
    intro q f h
    have hstep := h.step .tryPop trivial
    rw [replicate_succ]
    cases hx : f.items with
    | nil =>
      simp only [Fifo.step, hx] at hstep
      obtain ⟨⟨q', r⟩, hq, hq', rfl⟩ := hstep.exists_ok_left rfl
      rw [run_cons_ok hq, filterMap_cons, ih hq', hx, take_nil, take_nil]
      split_ifs <;> rfl
    | cons x xs =>
      simp only [Fifo.step, hx] at hstep
      obtain ⟨⟨q', r⟩, hq, hq', rfl⟩ := hstep.exists_ok_left rfl
      rw [run_cons_ok hq, filterMap_cons, ih hq']
      rfl

theorem Holds.push (h : Holds q f) {x : α} (hroom : q.count < q.size)
    (hfits : q.Fits (.tryPush x spare)) :
    ∃ q', q.tryPushLocked x spare = .ok (q', if f.closed then .error else .ok) := by
  have hcount := h.count
  have hcap := h.capacity
  rw [h.size_eq] at hroom
  rw [tryPushLocked, h.closed, h.size_eq]
  cases hclosed : f.closed with
  | true => exact ⟨q, rfl⟩
  | false =>
    obtain ⟨q', hput, -⟩ := h.put (by omega)
      (hfits (h.closed.trans hclosed) fun hfull => by omega).1 x
    refine ⟨q', ?_⟩
    rw [if_neg Bool.false_ne_true, if_neg (by omega), hput]
    rfl

/-- Pops deliver the same items, and a push for which both queues have room is answered alike. The
capacities may differ, so further pushes may find room in one of them only. -/
def Indistinguishable (q t : BufferQueue α) : Prop :=
  (∀ n, (run step q (List.replicate n .tryPop)).1.filterMap delivered =
      (run step t (List.replicate n .tryPop)).1.filterMap delivered) ∧
    ∀ x spare, q.count < q.size → t.count < t.size → q.Fits (.tryPush x spare) →
      t.Fits (.tryPush x spare) → ∃ q' t' r, q.tryPushLocked x spare = .ok (q', r) ∧
        t.tryPushLocked x spare = .ok (t', r)

theorem Holds.indistinguishable_iff (h : Holds q f) (hg : Holds t g)
    (hclosed : f.closed = g.closed) : Indistinguishable q t ↔ f.items = g.items := by
  constructor
  · intro halike
    have hpops := halike.1 (max f.items.length g.items.length)
    rwa [h.pops, hg.pops, take_of_length_le (le_max_left _ _),
      take_of_length_le (le_max_right _ _)] at hpops
  · intro hitems
    refine ⟨fun n => by rw [h.pops, hg.pops, hitems], fun x spare hq ht hfq hft => ?_⟩
    obtain ⟨q', hq'⟩ := h.push hq hfq
    obtain ⟨t', ht'⟩ := hg.push ht hft
    exact ⟨q', t', _, hq', by rw [ht', hclosed]⟩

/-- The queues that calls lead to, as long as the numbers of the pushes are `int`s. -/
def Reachable (q : BufferQueue α) : Prop :=
  ∃ capacity calls, 1 ≤ capacity ∧ capacity < 2 ^ 31 ∧ Meets step Fits (new capacity) calls ∧
    (run step (new capacity) calls).2 = .ok q

theorem Reachable.holds (h : Reachable q) : ∃ f, Holds q f := by
  obtain ⟨capacity, calls, hpos, hint, hfits, hrun⟩ := h
  have hrel := (run_simulation_of_meets (fun _ _ c h hfits => h.step c hfits) calls _ _
    (holds_new (α := α) hpos hint) hfits).2
  obtain ⟨f, -, hf⟩ := hrel.exists_ok hrun
  exact ⟨f, hf⟩

/-- A queue that is saved open is loaded as it is. Of a closed one only the mark is saved: the
queue it is loaded into keeps its own items. -/
theorem load_save_iff (codec : Codec α) (hq : Reachable q) (ht : Reachable t) :
    Indistinguishable q (t.onLoadLocked codec (q.onSaveLocked codec)).1 ↔
      q.closed = false ∨ q.contents = t.contents := by
  obtain ⟨f, hf⟩ := hq.holds
  obtain ⟨g, hg⟩ := ht.holds
  cases hclosed : q.closed with
  | false =>
    obtain ⟨capacity, hload⟩ := hf.load codec hg hclosed
    rw [hf.indistinguishable_iff hload (hf.closed.symm.trans hclosed)]
    exact iff_of_true rfl (.inl rfl)
  | true =>
    have hload :
        Holds (t.onLoadLocked codec (q.onSaveLocked codec)).1 { g with closed := true } := by
      rw [onSaveLocked, hclosed]
      exact { hg with closed := rfl }
    rw [hf.indistinguishable_iff hload (hf.closed.symm.trans hclosed), hf.contents_eq,
      hg.contents_eq]
    exact ⟨.inr, fun h => h.resolve_left (by simp)⟩

/-- Bytes that are saved as they are. -/
def byteCodec : Codec UInt8 where
  saveBuffer b := [b]
  loadBuffer
    | [] => none
    | b :: bs => some (b, bs)
  load_save _ _ := rfl

theorem reachable_two (calls : List (Call UInt8)) (q : BufferQueue UInt8)
    (hfits : Meets step Fits (new 2) calls) (hrun : (run step (new 2) calls).2 = .ok q) :
    Reachable q := ⟨2, calls, by norm_num, by norm_num, hfits, hrun⟩

/-- A queue with two items is loaded into one with another item. -/
theorem load_save_iff_two : Indistinguishable ⟨0, 2, false, false, [7, 8]⟩
        (onLoadLocked byteCodec ⟨0, 1, false, false, [9, 0]⟩
          (onSaveLocked byteCodec ⟨0, 2, false, false, [7, 8]⟩)).1 ↔
      false = false ∨ contents ⟨0, 2, false, false, [7, 8]⟩ =
        contents (⟨0, 1, false, false, [9, 0]⟩ : BufferQueue UInt8) :=
  load_save_iff byteCodec
    (reachable_two [.tryPush 7 0, .tryPush 8 0] _ (by decide +kernel) rfl)
    (reachable_two [.tryPush 9 0] _ (by decide +kernel) rfl)

/-- A queue that is closed with an item in it is loaded into a new one, and the item is lost. -/
theorem closed_items_lost :
    (run step (new 1) [.tryPush (7 : UInt8) 0, .close]).2 = .ok ⟨0, 1, true, false, [7]⟩ ∧
      ¬ Indistinguishable ⟨0, 1, true, false, [7]⟩
        ((new 1).onLoadLocked byteCodec (onSaveLocked byteCodec ⟨0, 1, true, false, [7]⟩)).1 := by
  refine ⟨rfl, fun h => ?_⟩
  have hpops := h.1 1
  revert hpops
  decide +kernel

end BufferQueue

end AndroidEmu.Containers
