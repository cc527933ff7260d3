import AndroidEmu.CS.Memory
import AndroidEmu.CS.Monitor
import AndroidEmu.CS.Ring

/-!
# Message channels

`aemu/base/MessageChannel.cpp` is a bounded queue of messages between threads, in an array used as a
ring. An operation that does not wait any more is one critical section. `stop` sets the count to
zero and wakes everyone up, and no operation transfers a message after it.
-/

namespace AndroidEmu.Base

open CS List Nat

variable {ι α : Type}

/-- The operations of a channel. Those that differ in how the message is passed are one. -/
inductive ChannelCall (α : Type)
  | send (msg : α)
  | trySend (msg : α)
  | receive
  | tryReceive
  | timedReceive
  | stop
  deriving DecidableEq, Repr

inductive ChannelResult (α : Type)
  | sent (res : Bool)
  | received (msg : Option α)
  | stopped
  deriving DecidableEq, Repr

/-- The message that an operation has put into the channel. -/
def accepted : ChannelCall α × ChannelResult α → List α
  | (.send msg, .sent true) | (.trySend msg, .sent true) => [msg]
  | _ => []

/-- The message that an operation has taken out of the channel. -/
def received : ChannelCall α × ChannelResult α → List α
  | (_, .received (some msg)) => [msg]
  | _ => []

/-! ### The list of messages -/

/-- What a channel is for: a list of messages, the oldest first. -/
structure Mailbox (α : Type) where
  messages : List α
  stopped : Bool

namespace Mailbox

/-- Take a message in at the end, as one of the two kinds of sends. -/
def add (b : Mailbox α) (msg : α) : Mailbox α := { b with messages := b.messages ++ [msg] }

/-- An operation on a mailbox of the given capacity; `none` if it has to wait. -/
def serve (capacity : ℕ) (b : Mailbox α) : ChannelCall α → Option (Mailbox α × ChannelResult α)
  | .send msg =>
    if b.stopped then some (b, .sent false)
    else if b.messages.length < capacity then some (b.add msg, .sent true)
    else none
  | .trySend msg =>
    if b.messages.length < capacity ∧ b.stopped = false then some (b.add msg, .sent true)
    else some (b, .sent false)
  | .receive | .timedReceive =>
    if b.stopped then some (b, .received none)
    else match b.messages with
      | [] => none
      | msg :: rest => some ({ b with messages := rest }, .received (some msg))
  | .tryReceive =>
    if b.stopped then some (b, .received none)
    else match b.messages with
      | [] => some (b, .received none)
      | msg :: rest => some ({ b with messages := rest }, .received (some msg))
  | .stop => some (⟨[], true⟩, .stopped)

/-- The books of a mailbox: nothing was received that was not accepted before, in the same order,
and until the mailbox is stopped the rest is still there. -/
structure Accounts (log : List (ChannelCall α × ChannelResult α)) (b : Mailbox α) : Prop where
  isPrefix : log.flatMap received <+: log.flatMap accepted
  running : b.stopped = false → log.flatMap accepted = log.flatMap received ++ b.messages
  stopped_iff : b.stopped = true ↔ (.stop, .stopped) ∈ log
  empty : b.stopped = true → b.messages = []

theorem accounts_nil : Accounts [] (⟨[], false⟩ : Mailbox α) where
  isPrefix := prefix_rfl
  running _ := rfl
  stopped_iff := by simp
  empty _ := rfl

variable {log : List (ChannelCall α × ChannelResult α)} {b b' : Mailbox α}

variable {c : ChannelCall α} {r : ChannelResult α}

theorem Accounts.idle (h : Accounts log b) (ha : accepted (c, r) = []) (hr : received (c, r) = [])
    (hstop : r ≠ .stopped) : Accounts (log ++ [(c, r)]) b where
  isPrefix := by simpa [ha, hr] using h.isPrefix
  running hrun := by simpa [ha, hr] using h.running hrun
  stopped_iff := by
    rw [h.stopped_iff]
    simp [hstop.symm]
  empty := h.empty

theorem Accounts.add (h : Accounts log b) (hrun : b.stopped = false) {msg : α}
    (hc : accepted (c, .sent true) = [msg]) : Accounts (log ++ [(c, .sent true)]) (b.add msg) where
  isPrefix := by
    simp only [flatMap_append, flatMap_singleton, hc, received, append_nil]
    exact h.isPrefix.trans (prefix_append _ _)
  running _ := by
    simp only [flatMap_append, flatMap_singleton, hc, received, append_nil,
      h.running hrun, Mailbox.add, append_assoc]
  stopped_iff := by
    change b.stopped = true ↔ _
    rw [h.stopped_iff]
    simp
  empty hstop := by
    change b.stopped = true at hstop
    simp [hrun] at hstop

theorem Accounts.remove (h : Accounts log b) (hrun : b.stopped = false)
    {msg : α} {rest : List α} (hb : b.messages = msg :: rest) (hc : ∀ r, accepted (c, r) = []) :
    Accounts (log ++ [(c, .received (some msg))]) { b with messages := rest } := by
  have hbooks := h.running hrun
  have hbooks' : (log ++ [(c, ChannelResult.received (some msg))]).flatMap accepted =
      (log ++ [(c, ChannelResult.received (some msg))]).flatMap received ++ rest := by
    simp only [flatMap_append, flatMap_singleton, hc, received, append_nil, hbooks,
      hb, append_assoc, singleton_append]
  refine ⟨?_, fun _ => hbooks', ?_, ?_⟩
  · rw [hbooks']
    exact prefix_append _ _
  · change b.stopped = true ↔ _
    rw [h.stopped_iff]
    simp
  · intro hstop
    simp [hrun] at hstop

theorem Accounts.stop (h : Accounts log b) :
    Accounts (log ++ [(.stop, .stopped)]) (⟨[], true⟩ : Mailbox α) where
  isPrefix := by simpa [accepted, received] using h.isPrefix
  running hrun := by simp at hrun
  stopped_iff := by simp
  empty _ := rfl

open Mailbox

theorem Accounts.serve {capacity : ℕ} (h : Accounts log b)
    (hs : b.serve capacity c = some (b', r)) : Accounts (log ++ [(c, r)]) b' := by
  cases c with
  | send msg =>
    simp only [serve] at hs
    split_ifs at hs with hstop hroom
    · cases hs
      exact h.idle rfl rfl (by simp)
    · cases hs
      exact h.add (by simpa using hstop) rfl
  | trySend msg =>
    simp only [serve] at hs
    split_ifs at hs with hroom
    · cases hs
      exact h.add hroom.2 rfl
    · cases hs
      exact h.idle rfl rfl (by simp)
  | receive | timedReceive =>
    simp only [serve] at hs
    split_ifs at hs with hstop
    · cases hs
      exact h.idle rfl rfl (by simp)
    · split at hs
      · cases hs
      · next msg rest hb =>
        cases hs
        exact h.remove (by simpa using hstop) hb fun r => by simp [accepted]
  | tryReceive =>
    simp only [serve] at hs
    split_ifs at hs with hstop
    · cases hs
      exact h.idle rfl rfl (by simp)
    · split at hs
      · cases hs
        exact h.idle rfl rfl (by simp)
      · next msg rest hb =>
        cases hs
        exact h.remove (by simpa using hstop) hb fun r => by simp [accepted]
  | stop =>
    cases hs
    exact h.stop

theorem no_transfer {capacity : ℕ} (hstop : b.stopped = true)
    (hs : b.serve capacity c = some (b', r)) : accepted (c, r) = [] ∧ received (c, r) = [] := by
  cases c with
  | send msg | receive | timedReceive | tryReceive =>
    simp only [serve, hstop, if_true] at hs
    cases hs
    exact ⟨rfl, rfl⟩
  | trySend msg =>
    simp only [serve, hstop] at hs
    rw [if_neg (by simp)] at hs
    cases hs
    exact ⟨rfl, rfl⟩
  | stop =>
    cases hs
    exact ⟨rfl, rfl⟩

end Mailbox

/-! ### The channel -/

/-- `MessageChannel` and its base class. The lock and the condition variables are in `monitor`. An
array has fewer than `2 ^ 63` items, so the sum of two places is a `size_t`. -/
structure MessageChannel (α : Type) where
  pos : ℕ
  capacity : ℕ
  count : ℕ
  stopped : Bool
  items : List α

namespace MessageChannel

def new [Inhabited α] (capacity : ℕ) : MessageChannel α :=
  ⟨0, capacity, 0, false, List.replicate capacity default⟩

/-- The place behind the last message. -/
def place (ch : MessageChannel α) : ℕ :=
  if ch.capacity ≤ ch.pos + ch.count then ch.pos + ch.count - ch.capacity else ch.pos + ch.count

/-- `beforeWrite`, from the test of its loop on; `none` is another turn of the wait. -/
def beforeWrite (ch : MessageChannel α) : Option ℕ :=
  if ch.capacity ≤ ch.count ∧ ch.stopped = false then none else some ch.place

/-- `MessageChannelBase::beforeTryWrite`. -/
def beforeTryWrite (ch : MessageChannel α) : Option ℕ :=
  if ch.capacity ≤ ch.count ∨ ch.stopped = true then none else some ch.place

/-- `MessageChannelBase::afterWrite`. -/
def afterWrite (ch : MessageChannel α) (success : Bool) : MessageChannel α :=
  if success then { ch with count := ch.count + 1 } else ch

/-- `beforeRead` and `beforeTimedRead`, from the test of their loops on; `none` is another turn of
the wait. -/
def beforeRead (ch : MessageChannel α) : Option ℕ :=
  if ch.count = 0 ∧ ch.stopped = false then none else some ch.pos

/-- `MessageChannelBase::beforeTryRead`. -/
def beforeTryRead (ch : MessageChannel α) : Option ℕ :=
  if ch.count = 0 ∨ ch.stopped = true then none else some ch.pos

/-- To count down from zero, which would wrap around, is made a fault. -/
def afterRead (ch : MessageChannel α) (success : Bool) : Checked (MessageChannel α) :=
  if success then
    if ch.count = 0 then .error .overflow
    else .ok { ch with
      pos := if ch.pos + 1 = ch.capacity then 0 else ch.pos + 1
      count := ch.count - 1 }
  else .ok ch

/-- A send that is accepted: the message is stored and counted. -/
def put (ch : MessageChannel α) (pos : ℕ) (msg : α) :
    Checked (Option (MessageChannel α × ChannelResult α)) := do
  let items ← writeAt ch.items pos msg
  return some (afterWrite { ch with items := items } true, .sent true)

/-- A receive that is served: the message is moved out and no longer counted. What the move leaves
in the array is not read again. -/
def take (ch : MessageChannel α) (pos : ℕ) :
    Checked (Option (MessageChannel α × ChannelResult α)) := do
  let msg ← readAt ch.items pos
  let ch ← ch.afterRead true
  return some (ch, .received (some msg))

def takeNone (ch : MessageChannel α) : Checked (Option (MessageChannel α × ChannelResult α)) := do
  let ch ← ch.afterRead false
  return some (ch, .received none)

/-- `MessageChannel::send`. -/
def send (ch : MessageChannel α) (msg : α) :
    Checked (Option (MessageChannel α × ChannelResult α)) :=
  match ch.beforeWrite with
  | none => .ok none
  | some pos => if ch.stopped then .ok (some (ch.afterWrite false, .sent false)) else ch.put pos msg

/-- `MessageChannel::trySend`. -/
def trySend (ch : MessageChannel α) (msg : α) :
    Checked (Option (MessageChannel α × ChannelResult α)) :=
  match ch.beforeTryWrite with
  | none => .ok (some (ch.afterWrite false, .sent false))
  | some pos => ch.put pos msg

/-- `receive`, and `timedReceive` when it finds the test of its loop false. -/
def receive (ch : MessageChannel α) : Checked (Option (MessageChannel α × ChannelResult α)) :=
  match ch.beforeRead with
  | none => .ok none
  | some pos => if ch.stopped then ch.takeNone else ch.take pos

/-- `MessageChannel::tryReceive`. -/
def tryReceive (ch : MessageChannel α) : Checked (Option (MessageChannel α × ChannelResult α)) :=
  match ch.beforeTryRead with
  | none => ch.takeNone
  | some pos => ch.take pos

/-- `MessageChannelBase::stop`. -/
def stop (ch : MessageChannel α) : MessageChannel α := { ch with stopped := true, count := 0 }

/-- The operations of a thread that has the lock. -/
def serve (ch : MessageChannel α) :
    ChannelCall α → Checked (Option (MessageChannel α × ChannelResult α))
  | .send msg => ch.send msg
  | .trySend msg => ch.trySend msg
  | .receive | .timedReceive => ch.receive
  | .tryReceive => ch.tryReceive
  | .stop => .ok (some (ch.stop, .stopped))

/-- The channel with its lock. A timed wait that ends without a signal returns no message, even if
one has arrived by the time the lock is taken again; `afterRead(false)` then only signals. -/
def monitor : Monitor (MessageChannel α) (ChannelCall α) (ChannelResult α) where
  serve := serve
  giveUp ch
    | .timedReceive => some (ch, .received none)
    | _ => none

variable {c : ChannelCall α} {ch' : MessageChannel α} {r : ChannelResult α}

theorem giveUp_eq {ch : MessageChannel α} (hs : monitor.giveUp ch c = some (ch', r)) :
    c = .timedReceive ∧ ch' = ch ∧ r = .received none := by
  cases c with
  | timedReceive =>
    cases hs
    exact ⟨rfl, rfl, rfl⟩
  | send msg | trySend msg | receive | tryReceive | stop => cases hs

/-! ### The ring holds the list -/

/-- The messages in the channel, from `mPos` on. -/
def messages [Inhabited α] (ch : MessageChannel α) : List α :=
  window (fun i => ch.items.getD i default) ch.capacity ch.pos ch.count

/-- The channel holds the messages of a mailbox. -/
structure Holds [Inhabited α] (capacity : ℕ) (ch : MessageChannel α) (b : Mailbox α) : Prop where
  capacity_eq : ch.capacity = capacity
  length_items : ch.items.length = capacity
  pos_lt : ch.pos < capacity
  count_le : ch.count ≤ capacity
  stopped_eq : ch.stopped = b.stopped
  messages_eq : ch.messages = b.messages

variable [Inhabited α] {capacity : ℕ} {ch : MessageChannel α} {b : Mailbox α}

theorem holds_new (h : 1 ≤ capacity) : Holds capacity (new capacity : MessageChannel α) ⟨[], false⟩
    where
  capacity_eq := rfl
  length_items := length_replicate
  pos_lt := h
  count_le := zero_le _
  stopped_eq := rfl
  messages_eq := rfl

@[simp] theorem length_messages (ch : MessageChannel α) : ch.messages.length = ch.count :=
  length_window _ _ _ _

section

variable (h : Holds capacity ch b)

include h

theorem Holds.count_eq : ch.count = b.messages.length := by
  rw [← h.messages_eq, length_messages]

theorem Holds.place_eq (hroom : ch.count < capacity) :
    ch.place = (ch.pos + ch.count) % capacity := by
  have hpos := h.pos_lt
  unfold place
  rw [h.capacity_eq]
  split_ifs with hle
  · rw [mod_eq_sub_mod hle, mod_eq_of_lt (by omega)]
  · rw [mod_eq_of_lt (by omega)]

theorem Holds.put (hroom : ch.count < capacity) (msg : α) :
    ∃ ch', ch.put ch.place msg = .ok (some (ch', .sent true)) ∧ Holds capacity ch' (b.add msg) := by
  have hlt : (ch.pos + ch.count) % capacity < ch.items.length := by
    rw [h.length_items]
    exact mod_lt _ (by omega)
  refine ⟨{ ch with
      items := ch.items.set ((ch.pos + ch.count) % capacity) msg
      count := ch.count + 1 }, ?_, ?_⟩
  · unfold MessageChannel.put
    rw [h.place_eq hroom, writeAt_of_lt hlt]
    rfl
  · refine ⟨h.capacity_eq, ?_, h.pos_lt, hroom, h.stopped_eq, ?_⟩
    · rw [← h.length_items]
      exact length_set
    · -- the cells before the new one are the old ones, and it is the last of the window
      have hcells : (fun i => (ch.items.set ((ch.pos + ch.count) % capacity) msg).getD i default) =
          putRing capacity (fun i => ch.items.getD i default) (ch.pos + ch.count) [msg] := by
        funext i
        simp only [putRing, getD_eq_getElem?_getD, getElem?_set, Function.update_apply]
        by_cases hi : (ch.pos + ch.count) % capacity = i
        · subst hi
          simp [hlt]
        · simp [hi, Ne.symm hi]
      change window (fun i => (ch.items.set ((ch.pos + ch.count) % capacity) msg).getD i default)
        ch.capacity ch.pos (ch.count + 1) = b.messages ++ [msg]
      rw [hcells, h.capacity_eq, window_append,
        window_putRing_before (by simpa using hroom), ← h.messages_eq, messages, h.capacity_eq]
      congr 1
      exact window_putRing (by simp only [length_singleton]; omega)

theorem Holds.take {msg : α} {rest : List α} (hb : b.messages = msg :: rest) :
    ∃ ch', ch.take ch.pos = .ok (some (ch', .received (some msg))) ∧
      Holds capacity ch' { b with messages := rest } := by
  have hcount : ch.count = rest.length + 1 := by rw [h.count_eq, hb, length_cons]
  have hle := h.count_le
  have hpos := h.pos_lt
  have hmessages := h.messages_eq
  rw [hb, messages, h.capacity_eq, hcount, window_succ, mod_eq_of_lt hpos] at hmessages
  obtain ⟨hhead, htail⟩ := cons.inj hmessages
  have hread : readAt ch.items ch.pos = .ok msg := by
    have hlt : ch.pos < ch.items.length := by
      rw [h.length_items]
      exact hpos
    rw [readAt_eq_ok, getElem?_eq_getElem hlt, ← hhead, getD_eq_getElem?_getD,
      getElem?_eq_getElem hlt, Option.getD_some]
  -- the next place, as a remainder
  have hnext : (if ch.pos + 1 = ch.capacity then 0 else ch.pos + 1) = (ch.pos + 1) % capacity := by
    rw [h.capacity_eq]
    split_ifs with hend
    · rw [hend, mod_self]
    · rw [mod_eq_of_lt (by omega)]
  refine ⟨{ ch with pos := (ch.pos + 1) % capacity, count := rest.length }, ?_, h.capacity_eq,
    h.length_items, mod_lt _ (by omega), ?_, h.stopped_eq, ?_⟩
  · unfold MessageChannel.take afterRead
    rw [hread, Checked.ok_bind, if_pos rfl, if_neg (by omega), hnext, hcount]
    rfl
  · change rest.length ≤ capacity
    omega
  · change window (fun i => ch.items.getD i default) ch.capacity ((ch.pos + 1) % capacity)
      rest.length = rest
    rw [h.capacity_eq, window_mod (mod_mod _ _), htail]

end

/-- The channel and the mailbox both wait, or both complete the operation with one result. -/
def Serves (capacity : ℕ) (x : Checked (Option (MessageChannel α × ChannelResult α)))
    (y : Option (Mailbox α × ChannelResult α)) : Prop :=
  (x = .ok none ∧ y = none) ∨
    ∃ ch b r, x = .ok (some (ch, r)) ∧ y = some (b, r) ∧ Holds capacity ch b

section

variable (h : Holds capacity ch b)

include h

theorem Holds.stop : Holds capacity ch.stop ⟨[], true⟩ :=
  { h with count_le := zero_le _, stopped_eq := rfl, messages_eq := rfl }

theorem Holds.send (msg : α) : Serves capacity (ch.send msg) (b.serve capacity (.send msg)) := by
  have hcount := h.count_eq
  simp only [MessageChannel.send, beforeWrite, Mailbox.serve, h.capacity_eq, h.stopped_eq, hcount]
  by_cases hstop : b.stopped = true
  · rw [if_neg (by simp [hstop]), if_pos hstop]
    exact .inr ⟨_, _, _, if_pos hstop, rfl, h⟩
  by_cases hroom : b.messages.length < capacity
  · obtain ⟨ch', hput, hholds⟩ := h.put (by omega) msg
    rw [if_neg (by omega), if_neg hstop, if_pos hroom]
    exact .inr ⟨ch', _, _, (if_neg hstop).trans hput, rfl, hholds⟩
  · rw [if_pos ⟨by omega, by simpa using hstop⟩, if_neg hstop, if_neg hroom]
    exact .inl ⟨rfl, rfl⟩

theorem Holds.trySend (msg : α) :
    Serves capacity (ch.trySend msg) (b.serve capacity (.trySend msg)) := by
  have hcount := h.count_eq
  simp only [MessageChannel.trySend, beforeTryWrite, Mailbox.serve, h.capacity_eq, h.stopped_eq,
    hcount]
  by_cases hroom : b.messages.length < capacity ∧ b.stopped = false
  · obtain ⟨ch', hput, hholds⟩ := h.put (by omega) msg
    rw [if_neg (by simp [hroom]), if_pos hroom]
    exact .inr ⟨ch', _, _, hput, rfl, hholds⟩
  have hfails : capacity ≤ b.messages.length ∨ b.stopped = true := by
    by_contra hnot
    push Not at hnot
    exact hroom ⟨hnot.1, by simpa using hnot.2⟩
  rw [if_pos hfails, if_neg hroom]
  exact .inr ⟨_, _, _, rfl, rfl, h⟩

theorem Holds.takeNone : Serves capacity ch.takeNone (some (b, .received none)) :=
  .inr ⟨ch, b, _, rfl, rfl, h⟩

theorem Holds.receive : Serves capacity ch.receive (b.serve capacity .receive) := by
  have hcount := h.count_eq
  simp only [MessageChannel.receive, beforeRead, Mailbox.serve, h.stopped_eq, hcount]
  by_cases hstop : b.stopped = true
  · rw [if_neg (by simp [hstop]), if_pos hstop]
    simp only [if_pos hstop]
    exact h.takeNone
  rw [if_neg hstop]
  cases hb : b.messages with
  | nil =>
    rw [if_pos ⟨rfl, by simpa using hstop⟩]
    exact .inl ⟨rfl, rfl⟩
  | cons msg rest =>
    obtain ⟨ch', htake, hholds⟩ := h.take hb
    exact .inr ⟨ch', _, _, (if_neg hstop).trans htake, rfl, hholds⟩

theorem Holds.tryReceive : Serves capacity ch.tryReceive (b.serve capacity .tryReceive) := by
  have hcount := h.count_eq
  simp only [MessageChannel.tryReceive, beforeTryRead, Mailbox.serve, h.stopped_eq, hcount]
  by_cases hstop : b.stopped = true
  · rw [if_pos (.inr hstop), if_pos hstop]
    exact h.takeNone
  rw [if_neg hstop]
  cases hb : b.messages with
  | nil =>
    exact h.takeNone
  | cons msg rest =>
    obtain ⟨ch', htake, hholds⟩ := h.take hb
    rw [if_neg (by simp [hstop])]
    exact .inr ⟨ch', _, _, htake, rfl, hholds⟩

theorem Holds.serve (c : ChannelCall α) : Serves capacity (ch.serve c) (b.serve capacity c) := by
  cases c with
  | send msg => exact h.send msg
  | trySend msg => exact h.trySend msg
  | receive => exact h.receive
  | tryReceive => exact h.tryReceive
  | timedReceive => exact h.receive
  | stop => exact .inr ⟨ch.stop, _, _, rfl, rfl, h.stop⟩

end

/-! ### Interleavings -/

/-- The channel holds the messages of a mailbox whose books are right. -/
def Accounts (capacity : ℕ) (log : List (ChannelCall α × ChannelResult α))
    (ch : MessageChannel α) : Prop :=
  ∃ b, Holds capacity ch b ∧ b.Accounts log

variable {log : List (ChannelCall α × ChannelResult α)}

theorem Accounts.isOk (h : Accounts capacity log ch) (c : ChannelCall α) :
    (monitor.serve ch c).IsOk := by
  obtain ⟨b, hb, _⟩ := h
  obtain ⟨hch, _⟩ | ⟨ch', _, r, hch, _⟩ := hb.serve c
  · exact ⟨_, hch⟩
  · exact ⟨_, hch⟩

theorem Holds.of_serve (h : Holds capacity ch b) (hs : monitor.serve ch c = .ok (some (ch', r))) :
    ∃ b', b.serve capacity c = some (b', r) ∧ Holds capacity ch' b' := by
  obtain ⟨hch, _⟩ | ⟨ch1, b', r1, hch, hb, hholds⟩ := h.serve c
  · rw [show ch.serve c = _ from hs] at hch
    cases hch
  · rw [show ch.serve c = _ from hs] at hch
    cases hch
    exact ⟨b', hb, hholds⟩

theorem Accounts.serve (h : Accounts capacity log ch)
    (hs : monitor.serve ch c = .ok (some (ch', r))) : Accounts capacity (log ++ [(c, r)]) ch' := by
  obtain ⟨b, hb, hbooks⟩ := h
  obtain ⟨b', hserve, hholds⟩ := hb.of_serve hs
  exact ⟨b', hholds, hbooks.serve hserve⟩

theorem Accounts.giveUp (h : Accounts capacity log ch) (hs : monitor.giveUp ch c = some (ch', r)) :
    Accounts capacity (log ++ [(c, r)]) ch' := by
  obtain ⟨rfl, rfl, rfl⟩ := giveUp_eq hs
  obtain ⟨b, hb, hbooks⟩ := h
  exact ⟨b, hb, hbooks.idle rfl rfl (by simp)⟩

/-- What an operation that completes may return, in the channel as it finds it. -/
structure Answers (ch : MessageChannel α) (c : ChannelCall α) (r : ChannelResult α) : Prop where
  /-- `trySend` fails only if the channel is full or stopped. -/
  trySend : ∀ msg, c = .trySend msg → r = .sent false → ch.count = ch.capacity ∨ ch.stopped = true
  /-- `tryReceive` fails only if the channel is empty or stopped. -/
  tryReceive : c = .tryReceive → r = .received none → ch.count = 0 ∨ ch.stopped = true
  /-- A stopped channel transfers no messages. -/
  stopped : ch.stopped = true → accepted (c, r) = [] ∧ received (c, r) = []

theorem Holds.answers (h : Holds capacity ch b)
    {b' : Mailbox α} (hs : b.serve capacity c = some (b', r)) : Answers ch c r := by
  have hcount := h.count_eq
  have hle := h.count_le
  have hcap := h.capacity_eq
  refine ⟨?_, ?_, ?_⟩
  · rintro msg rfl rfl
    simp only [Mailbox.serve] at hs
    split_ifs at hs with hroom
    · cases hs
    rw [h.stopped_eq]
    by_cases hstop : b.stopped = true
    · exact .inr hstop
    · left
      have hfull : ¬ b.messages.length < capacity := fun hlt => hroom ⟨hlt, by simpa using hstop⟩
      omega
  · rintro rfl rfl
    simp only [Mailbox.serve] at hs
    rw [h.stopped_eq]
    split_ifs at hs with hstop
    · exact .inr hstop
    · split at hs
      · next hb =>
        left
        rw [hcount, hb, length_nil]
      · cases hs
  · intro hstop
    rw [h.stopped_eq] at hstop
    exact Mailbox.no_transfer hstop hs

/-- In every interleaving of the operations of any number of threads, what is received is what was
accepted, in that order; nothing is lost while the channel runs, the count stays within the
capacity, operations fail for no other reason than they may, and after `stop` no message is
transferred. -/
theorem messages_received_in_order [DecidableEq ι] (capacity : ℕ) (hcapacity : 1 ≤ capacity)
    (es : List (Monitor.Event ι (ChannelCall α))) :
    ∃ s, (run monitor.step (.start (new capacity)) es).2 = .ok s ∧
      ∃ log, log = (run monitor.step (.start (new capacity)) es).1.reduceOption ∧
        log.flatMap received <+: log.flatMap accepted ∧
        (s.shared.stopped = false →
          log.flatMap accepted = log.flatMap received ++ s.shared.messages) ∧
        s.shared.count ≤ capacity ∧
        (s.shared.stopped = true ↔ (.stop, .stopped) ∈ log) ∧
        ∀ e s' c r, monitor.step s e = .ok (s', some (c, r)) → Answers s.shared c r := by
  obtain ⟨s, hs, b, hholds, hbooks⟩ := Monitor.run_calls (P := Accounts capacity) (ι := ι)
    (fun _ _ c h => h.isOk c) (fun _ _ _ _ _ h hs => h.serve hs)
    (fun _ _ _ _ _ h hs => h.giveUp hs)
    ⟨⟨[], false⟩, holds_new hcapacity, Mailbox.accounts_nil⟩ es
  refine ⟨s, hs, _, rfl, hbooks.isPrefix, ?_, hholds.count_le, ?_, ?_⟩
  · rw [hholds.stopped_eq, hholds.messages_eq]
    exact hbooks.running
  · rw [hholds.stopped_eq]
    exact hbooks.stopped_iff
  · intro e s' c r hstep
    obtain ⟨hnone, _⟩ | ⟨c', r', hsome, hserve | hgive⟩ := Monitor.step_cases hstep
    · cases hnone
    · cases hsome
      obtain ⟨b', hb', _⟩ := hholds.of_serve hserve
      exact hholds.answers hb'
    · cases hsome
      obtain ⟨rfl, _, rfl⟩ := giveUp_eq hgive
      exact ⟨by simp, by simp, fun _ => ⟨rfl, rfl⟩⟩

/-- Two senders and one place: the second one waits until the first message is received. -/
def twoSenders : List (Monitor.Event (Fin 2) (ChannelCall ℕ)) :=
  [.call 0 (.send 7), .call 1 (.send 8), .wake 1, .call 0 .receive, .wake 1]

theorem messages_received_in_order_two_senders :
    (run monitor.step (.start (new 1)) twoSenders).1.reduceOption =
        [(.send 7, .sent true), (.receive, .received (some 7)), (.send 8, .sent true)] ∧
      ∃ s, (run monitor.step (.start (new 1)) twoSenders).2 = .ok s ∧ s.shared.count ≤ 1 := by
  obtain ⟨s, hs, _, _, _, _, hcount, _⟩ := messages_received_in_order 1 le_rfl twoSenders
  exact ⟨by decide, s, hs, hcount⟩

end MessageChannel

end AndroidEmu.Base
