import AndroidEmu.Sync.Snapshot

/-!
# The delivery of commands

Each read of the batch command register writes the oldest pending command to the batch address, and
a command of zeros if there is none, which ends the guest's batch. A command that is sent with the
number zero looks the same as the end.
-/

namespace AndroidEmu.Sync

open CS SyncState List Checked

/-- The host sends a command, or the guest reads the batch command register. -/
inductive Turn
  | send (batch : BatchCmd)
  | read

def Turn.op : Turn → Op
  | .send batch => .send batch
  | .read => .read 0x00

def SyncState.turn (s : SyncState) (t : Turn) : Checked (SyncState × Effect) := s.step t.op

/-- A device whose batch address is set. -/
def SyncState.ready (addr : UInt64) : SyncState := { realize with batchCmdAddr := addr }

/-- The command that is written to the batch address. -/
def Effect.written : Effect → Option BatchCmd
  | .delivers _ batch => some batch
  | .quits _ => some ⟨0, 0, 0, 0⟩
  | _ => none

/-- The commands that were written and do not end the guest's batch. -/
def deliveries (effects : List Effect) : List BatchCmd :=
  (effects.filterMap Effect.written).filter fun b => b.cmd ≠ 0

/-- What a read has to do while these commands are pending: write the oldest one to the batch
address, or end the batch. -/
def oldest (addr : UInt64) : List BatchCmd → Effect
  | [] => .quits addr
  | batch :: _ => .delivers addr batch

/-- The commands that the host sends. -/
def sent (turns : List Turn) : List BatchCmd :=
  turns.filterMap fun
    | .send batch => some batch
    | .read => none

variable {s s' : SyncState} {addr : UInt64} {batch : BatchCmd}

theorem irq_of_sendCommand (h : s.sendCommand batch = .ok s') : s'.irq = true := by
  obtain ⟨s1, -, hs'⟩ := bind_eq_ok.mp h
  cases hs'
  rfl

theorem irq_of_popFirstCmd {popped : Option ℕ} (h : s.popFirstCmd = .ok (s', popped)) :
    s'.irq = s.irq := by
  rw [popFirstCmd] at h
  split at h
  · cases h
    rfl
  · obtain ⟨c, -, hs'⟩ := bind_eq_ok.mp h
    cases hs'
    rfl

/-- A read that delivers a command leaves the line as it is. -/
theorem irq_of_delivers (h : s.readBatchCommand = .ok (s', .delivers addr batch)) :
    s'.irq = s.irq := by
  rw [readBatchCommand] at h
  split at h
  · cases h
  · obtain ⟨⟨s1, popped⟩, hpop, hs'⟩ := bind_eq_ok.mp h
    cases popped with
    | none => cases hs'
    | some r =>
      obtain ⟨c, -, hs'⟩ := bind_eq_ok.mp hs'
      obtain ⟨cmds, -, hs'⟩ := bind_eq_ok.mp hs'
      cases hs'
      have hirq := irq_of_popFirstCmd hpop
      exact hirq

/-- What was delivered, followed by what is pending, is what was sent, and while something is
pending the line is high. -/
structure Kept (addr : UInt64) (turns : List Turn) (effects : List Effect) (s : SyncState) :
    Prop where
  addr_eq : s.batchCmdAddr = addr
  holds : ∃ nodes, s.Holds nodes s.pendingCmds
  fifo : deliveries effects ++ s.pendingCmds = sent turns
  nonzero : ∀ b ∈ s.pendingCmds, b.cmd ≠ 0
  raised : s.pendingCmds ≠ [] → s.irq = true

namespace Kept

variable {turns : List Turn} {effects : List Effect}

theorem send (h : Kept addr turns effects s) (hbatch : batch.cmd ≠ 0) :
    ∃ s', s.turn (.send batch) = .ok (s', .nothing) ∧
      Kept addr (turns ++ [.send batch]) (effects ++ [.nothing]) s' := by
  obtain ⟨nodes, hlist⟩ := h.holds
  obtain ⟨s', hs', hlist', haddr, -⟩ := hlist.send batch
  have hcmds := hlist'.pendingCmds_eq
  have hturn : s.turn (.send batch) = .ok (s', .nothing) := by
    rw [turn, Turn.op, step, hs']
    rfl
  refine ⟨s', hturn, haddr.trans h.addr_eq, ⟨_, hcmds ▸ hlist'⟩, ?_, ?_,
    fun _ => irq_of_sendCommand hs'⟩
  · have hfifo := h.fifo
    simp only [deliveries, sent, filterMap_append, filter_append] at hfifo ⊢
    rw [hcmds, ← hfifo]
    simp [Effect.written]
  · rw [hcmds]
    intro b hb
    rcases mem_append.mp hb with hb | hb
    · exact h.nonzero b hb
    · rwa [mem_singleton.mp hb]

/-- What a read does, with and without a pending command. -/
theorem read (h : Kept addr turns effects s) (haddr : addr ≠ 0) :
    ∃ s', s.turn .read = .ok (s', oldest addr s.pendingCmds) ∧
      Kept addr (turns ++ [.read]) (effects ++ [oldest addr s.pendingCmds]) s' ∧
      s'.pendingCmds = s.pendingCmds.tail := by
  obtain ⟨nodes, hlist⟩ := h.holds
  have hrefines : s.Refines ⟨s.pendingCmds, addr, s.batchGuestcmdAddr⟩ :=
    ⟨⟨nodes, hlist⟩, h.addr_eq, rfl⟩
  obtain ⟨s', hread, ⟨nodes', hlist'⟩, haddr', -⟩ := hrefines.readBatchCommand
  have hcmds := hlist'.pendingCmds_eq
  have hfifo := h.fifo
  have hnonzero := h.nonzero
  have hraised := h.raised
  rw [Queue.readBatchCommand, if_neg haddr] at hread hlist' haddr' hcmds
  cases hpending : s.pendingCmds with
  | nil =>
    rw [hpending] at hread hlist' haddr' hcmds hfifo
    refine ⟨s', hread, ⟨haddr', ⟨nodes', hcmds ▸ hlist'⟩, ?_, ?_, ?_⟩, hcmds⟩
    · rw [append_nil] at hfifo
      simp only [deliveries, sent, filterMap_append, filter_append] at hfifo ⊢
      rw [hcmds, ← hfifo]
      simp [Effect.written, oldest]
    · simp [hcmds]
    · simp [hcmds]
  | cons c cmds =>
    rw [hpending] at hread hlist' haddr' hcmds hfifo hnonzero hraised
    have hc : c.cmd ≠ 0 := hnonzero c mem_cons_self
    refine ⟨s', hread, ⟨haddr', ⟨nodes', hcmds ▸ hlist'⟩, ?_, ?_, ?_⟩, hcmds⟩
    · simp only [deliveries, sent, filterMap_append, filter_append] at hfifo ⊢
      rw [hcmds]
      simp [Effect.written, oldest, hc, ← hfifo]
    · rw [hcmds]
      exact fun b hb => hnonzero b (mem_cons_of_mem c hb)
    · intro _
      rw [irq_of_delivers hread]
      exact hraised (cons_ne_nil c cmds)

/-- A command of number zero is written only when nothing is pending. -/
theorem pending_eq_nil (h : Kept addr turns effects s)
    (hwritten : (oldest addr s.pendingCmds).written = some batch) (hzero : batch.cmd = 0) :
    s.pendingCmds = [] := by
  have hnonzero := h.nonzero
  cases hpending : s.pendingCmds with
  | nil => rfl
  | cons c cmds =>
    rw [hpending] at hwritten hnonzero
    obtain rfl : c = batch := Option.some.inj hwritten
    exact absurd hzero (hnonzero c mem_cons_self)

end Kept

theorem kept_ready (addr : UInt64) : Kept addr [] [] (ready addr) := by
  have hlist : (ready addr).Holds [] [] := .empty rfl rfl
  have hcmds := hlist.pendingCmds_eq
  exact ⟨rfl, ⟨[], hcmds ▸ hlist⟩, by simp [hcmds, deliveries, sent], by simp [hcmds],
    by simp [hcmds]⟩

/-- In every interleaving of sends and reads, in which no command with the number zero is sent, the
commands that are written and do not end a batch are the commands that were sent, in their order,
each once, up to those that are pending; the next read writes the oldest of these and takes it off;
while a command is pending the line is high; and a command of number zero is written only when
nothing is pending. -/
theorem commands_delivered_in_order (addr : UInt64) (haddr : addr ≠ 0) (turns : List Turn)
    (hsent : ∀ b ∈ sent turns, b.cmd ≠ 0) : ∃ s, (run turn (ready addr) turns).2 = .ok s ∧
      deliveries (run turn (ready addr) turns).1 ++ s.pendingCmds = sent turns ∧
      (s.pendingCmds ≠ [] → s.irq = true) ∧
      ∃ s', s.turn .read = .ok (s', oldest addr s.pendingCmds) ∧
        s'.pendingCmds = s.pendingCmds.tail ∧
        ∀ b, (oldest addr s.pendingCmds).written = some b → b.cmd = 0 → s.pendingCmds = [] := by
  have hmeets : Meets turn (fun _ t => ∀ b, t = .send b → b.cmd ≠ 0) (ready addr) turns := by
    refine meets_of_forall turns _ fun t ht s b hb => hsent b ?_
    exact mem_filterMap.mpr ⟨t, ht, by rw [hb]⟩
  have hstep : ∀ is os s t, Kept addr is os s → (∀ b, t = Turn.send b → b.cmd ≠ 0) →
      ∃ s' o, s.turn t = .ok (s', o) ∧ Kept addr (is ++ [t]) (os ++ [o]) s' := by
    intro is os s t h ht
    cases t with
    | send batch =>
      obtain ⟨s', hs', hkept⟩ := h.send (ht batch rfl)
      exact ⟨s', _, hs', hkept⟩
    | read =>
      obtain ⟨s', hs', hkept, -⟩ := h.read haddr
      exact ⟨s', _, hs', hkept⟩
  obtain ⟨s, hs, hkept⟩ := run_history hstep turns [] [] (kept_ready addr) hmeets
  obtain ⟨s', hread, -, htail⟩ := hkept.read haddr
  exact ⟨s, hs, hkept.fifo, hkept.raised, s', hread, htail, fun b => hkept.pending_eq_nil⟩

/-- Two commands and a read. -/
theorem commands_delivered_in_order_two_sends :
    ∃ s, (run turn (ready 1) [.send ⟨7, 0, 1, 0⟩, .send ⟨8, 0, 2, 0⟩, .read]).2 = .ok s ∧
      s.pendingCmds = [⟨8, 0, 2, 0⟩] ∧ s.irq = true ∧
      ∃ s', s.turn .read = .ok (s', .delivers 1 ⟨8, 0, 2, 0⟩) ∧ s'.pendingCmds = [] := by
  obtain ⟨s, hs, hfifo, hraised, s', hread, htail, -⟩ := commands_delivered_in_order 1 (by decide)
    [.send ⟨7, 0, 1, 0⟩, .send ⟨8, 0, 2, 0⟩, .read] (by decide)
  have hpending : s.pendingCmds = [⟨8, 0, 2, 0⟩] := append_cancel_left hfifo
  rw [hpending] at hraised hread htail
  exact ⟨s, hs, hpending, hraised (by simp), s', hread, htail⟩

/-- A command with the number zero is written while another one is pending, and is none of those
that do not end a batch. -/
theorem zero_command_ends_batch_early :
    ∃ s, (run turn (ready 1) [.send ⟨7, 0, 0, 0⟩, .send ⟨8, 0, 2, 0⟩]).2 = .ok s ∧
      s.pendingCmds = [⟨7, 0, 0, 0⟩, ⟨8, 0, 2, 0⟩] ∧
      (∃ s', s.turn .read = .ok (s', .delivers 1 ⟨7, 0, 0, 0⟩)) ∧
      deliveries (run turn (ready 1) [.send ⟨7, 0, 0, 0⟩, .read]).1 = [] :=
  ⟨_, rfl, by decide, ⟨_, rfl⟩, by decide⟩

end AndroidEmu.Sync
