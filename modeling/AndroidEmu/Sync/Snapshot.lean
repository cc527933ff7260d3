import AndroidEmu.Sync.Device

/-!
# Snapshots and resets of the sync device

Reset and save walk from `pending`, the newest command, so they see that command only. With two or
more commands pending, a reset leaves the others allocated, and a snapshot does not have them. The
loaded device is compared with the original as two queues.
-/

namespace AndroidEmu.Sync

open CS Checked List PendingCmd Register Store

namespace SyncState

/-! ### The list in the store -/

/-- The list leads through these nodes, with these commands in them, and `pending` is the last. -/
structure Holds (s : SyncState) (nodes : List ℕ) (cmds : List BatchCmd) : Prop where
  path : Path s.next s.firstPendingCmd nodes none
  newest : s.pending = nodes.getLast?
  batches : nodes.map (fun r => (s.cmds.cell r).map PendingCmd.batch) = cmds.map some
  nodup : nodes.Nodup

variable {s s' : SyncState} {nodes : List ℕ} {cmds : List BatchCmd} {r : ℕ} {batch : BatchCmd}

namespace Holds

theorem empty (hfirst : s.firstPendingCmd = none) (hpending : s.pending = none) :
    s.Holds [] [] := ⟨hfirst, hpending, rfl, nodup_nil⟩

section

variable (h : s.Holds nodes cmds)

include h

theorem length_eq : nodes.length = cmds.length := by
  have hlength := congrArg List.length h.batches
  rwa [length_map, length_map] at hlength

theorem exists_cell (hr : r ∈ nodes) : ∃ c, s.cmds.cell r = some c := by
  have hmem : (s.cmds.cell r).map batch ∈ cmds.map some := by
    rw [← h.batches]
    exact List.mem_map_of_mem hr
  obtain ⟨b, -, hb⟩ := List.mem_map.mp hmem
  obtain ⟨c, hc, -⟩ := Option.map_eq_some_iff.mp hb.symm
  exact ⟨c, hc⟩

theorem lt_bound (hr : r ∈ nodes) : r < s.cmds.bound := by
  obtain ⟨c, hc⟩ := h.exists_cell hr
  exact Store.lt_bound hc

theorem congr (hcell : ∀ r ∈ nodes, s'.cmds.cell r = s.cmds.cell r)
    (hfirst : s'.firstPendingCmd = s.firstPendingCmd) (hpending : s'.pending = s.pending) :
    s'.Holds nodes cmds where
  path := by
    rw [hfirst]
    refine h.path.congr fun r hr => ?_
    rw [next, hcell r hr]
    rfl
  newest := hpending.trans h.newest
  batches := by
    rw [← h.batches]
    exact map_congr_left fun r hr => by rw [hcell r hr]
  nodup := h.nodup

theorem pendingNodes_eq : s.pendingNodes = nodes := by
  have hsubset : nodes ⊆ List.range s.cmds.bound := fun r hr => mem_range.mpr (h.lt_bound hr)
  have hlength := (subperm_of_subset h.nodup hsubset).length_le
  rw [length_range] at hlength
  rw [pendingNodes, h.path.follow_eq hlength]
  rfl

theorem pendingCmds_eq : s.pendingCmds = cmds := by
  have hfilter : nodes.filterMap (fun r => (s.cmds.cell r).map batch) =
      (nodes.map fun r => (s.cmds.cell r).map batch).filterMap id := by
    rw [filterMap_map]
    rfl
  rw [pendingCmds, h.pendingNodes_eq, hfilter, h.batches, filterMap_map]
  exact filterMap_some

end

end Holds

/-! ### The operations on the list -/

theorem sendCommand_of_none (hpending : s.pending = none) (batch : BatchCmd) :
    s.sendCommand batch = .ok { s with
      cmds := s.cmds.put s.cmds.bound (some ⟨batch, none⟩)
      firstPendingCmd := some s.cmds.bound
      pending := some s.cmds.bound
      irq := true } := by
  rw [sendCommand, alloc]
  dsimp only
  rw [pushCmd, modify_of (put_cell_self ..), put_put, ok_bind, hpending]
  rfl

theorem sendCommand_of_some {c : PendingCmd} (hpending : s.pending = some r)
    (hr : s.cmds.cell r = some c) (batch : BatchCmd) : s.sendCommand batch = .ok { s with
      cmds := (s.cmds.put s.cmds.bound (some ⟨batch, none⟩)).put r
        (some { c with next := some s.cmds.bound })
      pending := some s.cmds.bound
      irq := true } := by
  have hne : r ≠ s.cmds.bound := (Store.lt_bound hr).ne
  have hcell : (s.cmds.put s.cmds.bound (some ⟨batch, none⟩)).cell r = some c := by
    rw [put_cell_of_ne hne, hr]
  rw [sendCommand, alloc]
  dsimp only
  rw [pushCmd, modify_of (put_cell_self ..), put_put, ok_bind, hpending]
  dsimp only
  rw [modify_of hcell]
  rfl

namespace Holds

theorem send (h : s.Holds nodes cmds) (batch : BatchCmd) : ∃ s', s.sendCommand batch = .ok s' ∧
      s'.Holds (nodes ++ [s.cmds.bound]) (cmds ++ [batch]) ∧
      s'.batchCmdAddr = s.batchCmdAddr ∧ s'.batchGuestcmdAddr = s.batchGuestcmdAddr := by
  have hfresh : s.cmds.bound ∉ nodes := fun hr => absurd (h.lt_bound hr) (lt_irrefl _)
  have hnodup : (nodes ++ [s.cmds.bound]).Nodup := by
    rw [nodup_append]
    refine ⟨h.nodup, nodup_singleton _, fun a ha b hb => ?_⟩
    obtain rfl := mem_singleton.mp hb
    exact fun heq => hfresh (heq ▸ ha)
  rcases eq_nil_or_concat' nodes with rfl | ⟨older, m, rfl⟩
  · obtain rfl : cmds = [] := length_eq_zero_iff.mp h.length_eq.symm
    refine ⟨_, sendCommand_of_none h.newest batch, ⟨⟨rfl, ?_⟩, rfl, ?_, hnodup⟩, rfl, rfl⟩
    · simp [next, CS.Path]
    · simp
  obtain ⟨c, hc⟩ := h.exists_cell (r := m) (by simp)
  have hm : m ≠ s.cmds.bound := (Store.lt_bound hc).ne
  refine ⟨_, sendCommand_of_some (by rw [h.newest, getLast?_concat]) hc batch, ?_, rfl, rfl⟩
  constructor
  case path =>
    -- the next field of the last node is the slot behind the list
    have hstore := h.path.store h.nodup (some s.cmds.bound)
    rw [Slot.behind_concat] at hstore
    refine (hstore.congr fun r hr => ?_).append ⟨rfl, ?_⟩
    · rw [next, Slot.storeNext, Function.update_apply, put_cell]
      split_ifs
      · rfl
      · rw [put_cell_of_ne fun heq : r = s.cmds.bound => hfresh (heq ▸ hr)]
        rfl
    · simp [next, CS.Path, put_cell, hm.symm]
  case newest => rw [getLast?_concat]
  case batches =>
    rw [map_append, map_append (f := some), ← h.batches]
    refine congrArg₂ _ (map_congr_left fun r hr => ?_) ?_
    · rw [put_cell]
      split_ifs with heq
      · rw [heq, hc]
        rfl
      · rw [put_cell_of_ne fun heq : r = s.cmds.bound => hfresh (heq ▸ hr)]
    · simp [put_cell, hm.symm]
  case nodup => exact hnodup

theorem pop {older : BatchCmd} (h : s.Holds (r :: nodes) (older :: cmds)) :
    ∃ s1 c, s.popFirstCmd = .ok (s1, some r) ∧ s1.cmds.cell r = some c ∧ c.batch = older ∧
      { s1 with cmds := s1.cmds.put r none }.Holds nodes cmds ∧
      s1.batchCmdAddr = s.batchCmdAddr ∧ s1.batchGuestcmdAddr = s.batchGuestcmdAddr := by
  obtain ⟨c, hc⟩ := h.exists_cell mem_cons_self
  obtain ⟨hr, hnodup⟩ := nodup_cons.mp h.nodup
  obtain ⟨hfirst, hpath⟩ := h.path
  have hbatches := h.batches
  rw [map_cons, hc] at hbatches
  obtain ⟨hbatch, hbatches⟩ := cons.inj hbatches
  refine ⟨{ s with
    firstPendingCmd := c.next
    pending := if s.pending = some r then none else s.pending }, c, ?_, hc,
    Option.some.inj hbatch, ?_, rfl, rfl⟩
  · rw [popFirstCmd, hfirst]
    dsimp only
    rw [load_of hc]
    rfl
  have hcells : ∀ q ∈ nodes, (s.cmds.put r none).cell q = s.cmds.cell q := fun q hq =>
    put_cell_of_ne fun heq => hr (heq ▸ hq)
  constructor
  case path =>
    rw [next, hc] at hpath
    refine hpath.congr fun q hq => ?_
    rw [next, hcells q hq]
    rfl
  case newest =>
    rw [h.newest]
    cases nodes with
    | nil => simp
    | cons q nodes =>
      rw [getLast?_cons_cons, if_neg]
      intro hlast
      exact hr (mem_of_getLast? hlast)
  case batches =>
    rw [← hbatches]
    exact map_congr_left fun q hq => by rw [hcells q hq]
  case nodup => exact hnodup

theorem next_newest (h : s.Holds nodes cmds) (hr : nodes.getLast? = some r) : s.next r = none := by
  obtain ⟨older, rfl⟩ := getLast?_eq_some_iff.mp hr
  obtain ⟨mid, -, hmid⟩ := Path.append_iff.mp h.path
  exact hmid.2

/-- The newest command is the last of its list. -/
theorem newest_cell (h : s.Holds nodes cmds) (hlast : nodes.getLast? = some r) :
    ∃ c n, s.cmds.cell r = some c ∧ c.next = none ∧ s.cmds.bound = n + 1 := by
  obtain ⟨c, hc⟩ := h.exists_cell (mem_of_getLast? hlast)
  have hnext := h.next_newest hlast
  rw [next, hc] at hnext
  exact ⟨c, _, hc, hnext, (Nat.succ_pred_eq_of_pos (Nat.zero_lt_of_lt (Store.lt_bound hc))).symm⟩

theorem reset (h : s.Holds nodes cmds) : s.resetDevice = .ok { s with
      cmds := match nodes.getLast? with
        | none => s.cmds
        | some r => s.cmds.put r none
      pending := none
      firstPendingCmd := none
      irq := false } := by
  rw [resetDevice, clearPending, h.newest]
  cases hlast : nodes.getLast? with
  | none =>
    rw [freeFrom]
    rfl
  | some r =>
    obtain ⟨c, n, hc, hnext, hn⟩ := h.newest_cell hlast
    rw [hn, freeFrom, load_of hc, ok_bind, free_of hc, ok_bind, hnext, freeFrom]
    rfl

end Holds

/-! ### The device is a queue -/

/-- The list has the commands of the queue, and the registers are the same. -/
def Refines (s : SyncState) (q : Queue) : Prop :=
  (∃ nodes, s.Holds nodes q.cmds) ∧ s.batchCmdAddr = q.batchCmdAddr ∧
    s.batchGuestcmdAddr = q.batchGuestcmdAddr

variable {q : Queue}

open SyncState

theorem Refines.readBatchCommand (h : s.Refines q) :
    ∃ s', s.readBatchCommand = .ok (s', q.readBatchCommand.2) ∧
      s'.Refines q.readBatchCommand.1 := by
  obtain ⟨cmds, addr, guestAddr⟩ := q
  obtain ⟨⟨nodes, hlist⟩, haddr, hguest⟩ := id h
  subst haddr hguest
  rw [readBatchCommand, Queue.readBatchCommand]
  by_cases hzero : s.batchCmdAddr = 0
  · rw [if_pos hzero, if_pos hzero]
    exact ⟨s, rfl, h⟩
  rw [if_neg hzero, if_neg hzero]
  cases cmds with
  | nil =>
    obtain rfl : nodes = [] := length_eq_zero_iff.mp hlist.length_eq
    have hfirst : s.firstPendingCmd = none := hlist.path
    refine ⟨{ s with irq := false }, ?_, ⟨[], .empty hfirst hlist.newest⟩, rfl, rfl⟩
    have hpop : s.popFirstCmd = .ok (s, none) := by rw [popFirstCmd, hfirst]
    rw [hpop]
    rfl
  | cons c cmds =>
    cases nodes with
    | nil => exact absurd hlist.length_eq (by simp)
    | cons r nodes =>
      obtain ⟨s1, p, hpop, hp, rfl, hrest, haddr, hguest⟩ := hlist.pop
      refine ⟨{ s1 with cmds := s1.cmds.put r none }, ?_, ⟨nodes, hrest⟩, haddr, hguest⟩
      rw [hpop, ok_bind]
      dsimp only
      rw [load_of hp, free_of hp, haddr]
      rfl

theorem Refines.reset (h : s.Refines q) :
    ∃ s', s.resetDevice = .ok s' ∧ s'.Refines { q with cmds := [] } := by
  obtain ⟨⟨nodes, hlist⟩, haddr, hguest⟩ := h
  exact ⟨_, hlist.reset, ⟨[], .empty rfl rfl⟩, haddr, hguest⟩

theorem step_refines (s : SyncState) (q : Queue) (op : Op) (h : s.Refines q) :
    Checked.Rel (fun p p' => p.1.Refines p'.1 ∧ p.2 = p'.2) (s.step op) (q.step op) := by
  obtain ⟨hlist, haddr, hguest⟩ := id h
  cases op with
  | send batch =>
    obtain ⟨nodes, hlist⟩ := hlist
    obtain ⟨s', hsend, hlist', haddr', hguest'⟩ := hlist.send batch
    rw [step, hsend]
    exact .ok ⟨⟨⟨_, hlist'⟩, haddr'.trans haddr, hguest'.trans hguest⟩, rfl⟩
  | read offset =>
    rw [step, Queue.step]
    cases ofOffset offset with
    | batchCommand =>
      obtain ⟨s', hread, h'⟩ := h.readBatchCommand
      rw [read, hread]
      exact .ok ⟨h', rfl⟩
    | batchCommandAddr => exact .ok ⟨h, by rw [haddr]⟩
    | batchCommandAddrHigh => exact .ok ⟨h, by rw [haddr]⟩
    | batchGuestcommandAddr => exact .ok ⟨h, by rw [hguest]⟩
    | batchGuestcommandAddrHigh => exact .ok ⟨h, by rw [hguest]⟩
    | batchGuestcommand => exact .error _
    | init => exact .error _
    | invalid => exact .error _
  | write offset val incoming guestIncoming =>
    -- the registers have no part in the list
    have hregisters (addr guestAddr : UInt64) : ∃ nodes, { s with
        batchCmdAddr := addr, batchGuestcmdAddr := guestAddr }.Holds nodes q.cmds := by
      obtain ⟨nodes, hlist⟩ := hlist
      exact ⟨nodes, hlist.congr (fun _ _ => rfl) rfl rfl⟩
    rw [step, Queue.step]
    cases ofOffset offset with
    | batchCommand =>
      rw [write, Queue.write, haddr]
      split_ifs
      · exact .ok ⟨h, rfl⟩
      · exact .ok ⟨h, rfl⟩
    | batchGuestcommand =>
      rw [write, Queue.write, hguest]
      split_ifs
      · exact .ok ⟨h, rfl⟩
      · exact .ok ⟨h, rfl⟩
      · exact .ok ⟨h, rfl⟩
    | batchCommandAddr => exact .ok ⟨⟨hregisters _ _, rfl, hguest⟩, rfl⟩
    | batchCommandAddrHigh => exact .ok ⟨⟨hregisters _ _, by rw [haddr], hguest⟩, rfl⟩
    | batchGuestcommandAddr => exact .ok ⟨⟨hregisters _ _, haddr, rfl⟩, rfl⟩
    | batchGuestcommandAddrHigh => exact .ok ⟨⟨hregisters _ _, haddr, by rw [hguest]⟩, rfl⟩
    | init =>
      obtain ⟨s', hreset, h'⟩ := h.reset
      rw [write, hreset]
      exact .ok ⟨h', rfl⟩
    | invalid => exact .error _

/-! ### Snapshots -/

theorem getBatch_put (b : BatchCmd) (rest : Bytes) : getBatch (putBatch b ++ rest) = (b, rest) := by
  have h1 := getBe_putBe 8 (lt_pow_bytes (show b.handle.toNat < 2 ^ (8 * 8) from
    b.handle.toNat_lt)) (putBe 8 b.hostcmdHandle.toNat ++ (putBe 8 b.cmd.toNat ++
      (putBe 8 b.timeArg.toNat ++ rest)))
  have h2 := getBe_putBe 8 (lt_pow_bytes (show b.hostcmdHandle.toNat < 2 ^ (8 * 8) from
    b.hostcmdHandle.toNat_lt)) (putBe 8 b.cmd.toNat ++ (putBe 8 b.timeArg.toNat ++ rest))
  have hcmd := b.cmd.toNat_lt
  have h3 := getBe_putBe 8 (lt_pow_bytes (show b.cmd.toNat < 2 ^ (8 * 8) by omega))
    (putBe 8 b.timeArg.toNat ++ rest)
  have htime := b.timeArg.toNat_lt
  have h4 := getBe_putBe 8 (lt_pow_bytes (show b.timeArg.toNat < 2 ^ (8 * 8) by omega)) rest
  rw [putBatch, getBatch]
  simp only [append_assoc]
  rw [h1, h2, h3, h4]
  simp

/-- The bytes for the newest command, if there is one. -/
def putNewest : Option BatchCmd → Bytes
  | none => putExists none
  | some b => putExists (some 0) ++ (putBatch b ++ putExists none)

theorem putExists_some (p : ℕ) : putExists (some p) = putBe 1 1 := rfl

theorem putExists_none : putExists none = putBe 1 0 := rfl

theorem Holds.save (h : s.Holds nodes cmds) :
    s.save = .ok (putBe 8 s.batchCmdAddr.toNat ++ (putBe 8 s.batchGuestcmdAddr.toNat ++
      putNewest cmds.getLast?)) := by
  have hlast : nodes.getLast?.map (fun r => (s.cmds.cell r).map batch) =
      cmds.getLast?.map some := by rw [← getLast?_map, ← getLast?_map, h.batches]
  rw [SyncState.save, h.newest]
  cases hnewest : nodes.getLast? with
  | none =>
    have hcmds : cmds.getLast? = none := by simpa [hnewest] using hlast.symm
    rw [saveFrom, hcmds]
    rfl
  | some r =>
    obtain ⟨c, n, hc, hnext, hn⟩ := h.newest_cell hnewest
    have hcmds : cmds.getLast? = some c.batch := by
      rw [hnewest, Option.map_some, hc] at hlast
      obtain ⟨b, hb, hb'⟩ := Option.map_eq_some_iff.mp hlast.symm
      rw [hb, Option.some.inj hb']
    rw [hn, saveFrom, load_of hc, ok_bind, hnext, saveFrom, hcmds]
    rfl

theorem loadPendingCmds_put (cmds : Store PendingCmd) (newest : Option BatchCmd) (rest : Bytes) :
    ∃ cmds' p, loadPendingCmds cmds (putNewest newest ++ rest) = .ok (cmds', p) ∧
      ∀ addr guestAddr irq,
        (⟨cmds', p, p, addr, guestAddr, irq⟩ : SyncState).Holds p.toList newest.toList := by
  cases newest with
  | none =>
    refine ⟨cmds, none, ?_, fun _ _ _ => .empty rfl rfl⟩
    rfl
  | some b =>
    have hcell : (cmds.put cmds.bound (some ⟨⟨0, 0, 0, 0⟩, none⟩)).cell cmds.bound =
      some ⟨⟨0, 0, 0, 0⟩, none⟩ := put_cell_self ..
    refine ⟨cmds.put cmds.bound (some ⟨b, none⟩), some cmds.bound, ?_, ?_⟩
    · rw [loadPendingCmds, putNewest, putExists_some, append_assoc, getBe_putBe 1 (by decide)]
      dsimp only
      rw [if_neg (by decide), alloc]
      rw [loadFrom, append_assoc, getBatch_put, putExists_none]
      rw [getBe_putBe 1 (by decide)]
      dsimp only
      rw [if_neg (by decide), modify_of hcell, put_put]
      rfl
    · intro addr guestAddr irq
      constructor
      · exact ⟨rfl, by simp [next, CS.Path]⟩
      · rfl
      · simp
      · exact nodup_singleton _

theorem Holds.load_save (h : s.Holds nodes cmds) (rest : Bytes) :
    ∃ bytes s', s.save = .ok bytes ∧ realize.load (bytes ++ rest) = .ok s' ∧
      s'.Refines ⟨cmds.getLast?.toList, s.batchCmdAddr, s.batchGuestcmdAddr⟩ := by
  obtain ⟨cmds', p, hload, hlist⟩ := loadPendingCmds_put realize.cmds cmds.getLast? rest
  have haddr := getBe_putBe 8 (lt_pow_bytes (show s.batchCmdAddr.toNat < 2 ^ (8 * 8) from
    s.batchCmdAddr.toNat_lt)) (putBe 8 s.batchGuestcmdAddr.toNat ++
      (putNewest cmds.getLast? ++ rest))
  have hguest := getBe_putBe 8 (lt_pow_bytes (show s.batchGuestcmdAddr.toNat < 2 ^ (8 * 8) from
    s.batchGuestcmdAddr.toNat_lt)) (putNewest cmds.getLast? ++ rest)
  have hreset : realize.resetDevice = .ok realize := (Holds.empty rfl rfl).reset
  refine ⟨_, _, h.save, ?_, ⟨p.toList, hlist s.batchCmdAddr s.batchGuestcmdAddr p.isSome⟩, rfl, rfl⟩
  rw [load, hreset, ok_bind]
  simp only [append_assoc]
  rw [haddr]
  rw [hguest]
  rw [hload, UInt64.ofNat_toNat, UInt64.ofNat_toNat]
  rfl

/-- A snapshot can be loaded into a new device, which is then as it should be. The services add
the rest of the stream. -/
def RoundTrips (s : SyncState) (same : SyncState → Prop) : Prop :=
  ∀ rest, ∃ bytes s', s.save = .ok bytes ∧ realize.load (bytes ++ rest) = .ok s' ∧ same s'

/-- A reset frees every pending command. To free one twice is a fault. -/
def ResetFrees (s : SyncState) : Prop :=
  ∃ s', s.resetDevice = .ok s' ∧ ∀ r ∈ s.pendingNodes, s'.cmds.cell r = none

theorem getLast?_toList_eq_iff {α : Type} (xs : List α) :
    xs.getLast?.toList = xs ↔ xs.length ≤ 1 := by
  constructor
  · intro h
    rw [← h]
    cases xs.getLast? <;> simp
  · intro h
    match xs, h with
    | [], _ => rfl
    | [x], _ => rfl

theorem Holds.roundTrips (h : s.Holds nodes cmds) {same : SyncState → Prop}
    (hround : s.RoundTrips same) :
    ∃ s', same s' ∧ s'.Refines ⟨cmds.getLast?.toList, s.batchCmdAddr, s.batchGuestcmdAddr⟩ := by
  obtain ⟨bytes, s', hsave, hload, hsame⟩ := hround []
  obtain ⟨bytes', s'', hsave', hload', hrefines⟩ := h.load_save []
  obtain rfl : bytes = bytes' := Except.ok.inj (hsave.symm.trans hsave')
  obtain rfl : s' = s'' := Except.ok.inj (hload.symm.trans hload')
  exact ⟨s', hsame, hrefines⟩

theorem Holds.restores_iff (h : s.Holds nodes cmds) :
    (s.RoundTrips fun s' => s'.pendingCmds = s.pendingCmds) ↔ cmds.length ≤ 1 := by
  rw [← getLast?_toList_eq_iff]
  constructor
  · intro hround
    obtain ⟨s', hsame, ⟨nodes', h'⟩, -⟩ := h.roundTrips hround
    rwa [h'.pendingCmds_eq, h.pendingCmds_eq] at hsame
  · intro heq rest
    obtain ⟨bytes, s', hsave, hload, ⟨nodes', h'⟩, -⟩ := h.load_save rest
    rw [heq] at h'
    exact ⟨bytes, s', hsave, hload, h'.pendingCmds_eq.trans h.pendingCmds_eq.symm⟩

/-- The guest sets the address and reads the batch command register twice. -/
def readTwice : List Op := [.write 0x08 1 ⟨0, 0, 0, 0⟩ ⟨0, 0, 0, 0⟩, .read 0x00, .read 0x00]

theorem Holds.delivers_iff (h : s.Holds nodes cmds) :
    (s.RoundTrips fun s' => ∀ ops, trace step s' ops = trace step s ops) ↔ cmds.length ≤ 1 := by
  have hs : s.Refines ⟨cmds, s.batchCmdAddr, s.batchGuestcmdAddr⟩ := ⟨⟨nodes, h⟩, rfl, rfl⟩
  constructor
  · intro hround
    obtain ⟨s', hsame, hrefines⟩ := h.roundTrips hround
    have htraces : trace Queue.step ⟨cmds.getLast?.toList, s.batchCmdAddr, s.batchGuestcmdAddr⟩
        readTwice = trace Queue.step ⟨cmds, s.batchCmdAddr, s.batchGuestcmdAddr⟩ readTwice := by
      rw [← trace_eq step_refines hrefines, ← trace_eq step_refines hs]
      exact hsame readTwice
    -- the second read finds no command in the loaded device, and one in the original
    match cmds, htraces with
    | [], _ => exact Nat.zero_le 1
    | [_], _ => exact le_rfl
    | first :: second :: cmds, htraces =>
      obtain ⟨last, hlast⟩ : ∃ last, (first :: second :: cmds).getLast? = some last :=
        ⟨_, getLast?_eq_some_getLast (cons_ne_nil _ _)⟩
      rw [hlast] at htraces
      simp [trace, run, readTwice, Queue.step, Queue.read, Queue.write, Queue.readBatchCommand,
        ofOffset] at htraces
  · intro hle rest
    obtain ⟨bytes, s', hsave, hload, hrefines⟩ := h.load_save rest
    rw [(getLast?_toList_eq_iff cmds).mpr hle] at hrefines
    refine ⟨bytes, s', hsave, hload, fun ops => ?_⟩
    exact (trace_eq step_refines hrefines ops).trans (trace_eq step_refines hs ops).symm

theorem Holds.resetFrees_iff (h : s.Holds nodes cmds) : s.ResetFrees ↔ cmds.length ≤ 1 := by
  rw [← h.length_eq]
  constructor
  · rintro ⟨s', hreset, hfree⟩
    rw [h.reset] at hreset
    obtain rfl := Except.ok.inj hreset
    rw [h.pendingNodes_eq] at hfree
    match nodes, h, hfree with
    | [], _, _ => exact Nat.zero_le 1
    | [_], _, _ => exact le_rfl
    | first :: second :: nodes, h, hfree =>
      -- the first node is not the last one, so it is still there
      obtain ⟨last, hlast⟩ : ∃ last, (first :: second :: nodes).getLast? = some last :=
        ⟨_, getLast?_eq_some_getLast (cons_ne_nil _ _)⟩
      have hne : first ≠ last := by
        rintro rfl
        exact (nodup_cons.mp h.nodup).1 (mem_of_getLast? hlast)
      obtain ⟨c, hc⟩ := h.exists_cell mem_cons_self
      have hfirst := hfree first mem_cons_self
      rw [hlast] at hfirst
      rw [put_cell_of_ne hne, hc] at hfirst
      cases hfirst
  · intro hle
    refine ⟨_, h.reset, fun r hr => ?_⟩
    rw [h.pendingNodes_eq] at hr
    match nodes, hle with
    | [q], _ =>
      obtain rfl := mem_singleton.mp hr
      exact put_cell_self ..

/-! ### Runs -/

/-- There is a list. -/
def Inv (s : SyncState) : Prop := ∃ nodes cmds, s.Holds nodes cmds

theorem queue_step_ensures (q : Queue) (op : Op) :
    (q.step op).Ensures (fun _ => True) (· = .assertion) := by
  cases op with
  | send batch => trivial
  | read offset =>
    rw [Queue.step]
    cases ofOffset offset <;> trivial
  | write offset val incoming guestIncoming =>
    rw [Queue.step]
    cases ofOffset offset with
    | batchCommand =>
      rw [Queue.write]
      split_ifs <;> trivial
    | batchGuestcommand =>
      rw [Queue.write]
      split_ifs <;> trivial
    | _ => trivial

theorem step_inv (s : SyncState) (op : Op) (h : s.Inv) :
    (s.step op).Ensures (fun p => p.1.Inv) (· = .assertion) := by
  obtain ⟨nodes, cmds, h⟩ := h
  have hrel := step_refines s ⟨cmds, s.batchCmdAddr, s.batchGuestcmdAddr⟩ op ⟨⟨nodes, h⟩, rfl, rfl⟩
  have hstep := queue_step_ensures ⟨cmds, s.batchCmdAddr, s.batchGuestcmdAddr⟩ op
  cases hs : s.step op with
  | error f =>
    rw [hrel.eq_error hs] at hstep
    exact hstep
  | ok p =>
    obtain ⟨p', -, ⟨⟨nodes', h'⟩, -⟩, -⟩ := hrel.exists_ok hs
    exact ⟨nodes', p'.1.cmds, h'⟩

/-- **Snapshots and resets.** In every state that any sends and register accesses lead to, a
snapshot restores the pending commands, the loaded device delivers what the original does, and a
reset frees the pending commands, each if and only if at most one is pending. -/
theorem snapshot_and_reset_iff (ops : List Op) : (run step realize ops).2.Ensures (fun s =>
        ((s.RoundTrips fun s' => s'.pendingCmds = s.pendingCmds) ↔ s.pendingCmds.length ≤ 1) ∧
        ((s.RoundTrips fun s' => ∀ ops', trace step s' ops' = trace step s ops') ↔
          s.pendingCmds.length ≤ 1) ∧
        (s.ResetFrees ↔ s.pendingCmds.length ≤ 1))
      (· = .assertion) := by
  have hinit : realize.Inv := ⟨[], [], .empty rfl rfl⟩
  refine (run_invariant_always step_inv ops realize hinit).mono ?_
  rintro s ⟨nodes, cmds, h⟩
  rw [h.pendingCmds_eq]
  exact ⟨h.pendingCmds_eq ▸ h.restores_iff, h.delivers_iff, h.resetFrees_iff⟩

/-- Two commands are sent. The snapshot has the second one only, and a reset leaves the first one
allocated. -/
theorem older_commands_are_lost :
    (run step realize [.send ⟨1, 2, 3, 4⟩, .send ⟨5, 6, 7, 8⟩]).2.Ensures
      (fun s =>
        (s.save >>= fun bytes => realize.load bytes).Ensures
          (fun s' => s.pendingCmds = [⟨1, 2, 3, 4⟩, ⟨5, 6, 7, 8⟩] ∧
            s'.pendingCmds = [⟨5, 6, 7, 8⟩]) (fun _ => False) ∧
        s.resetDevice.Ensures
          (fun s' => s.pendingNodes = [0, 1] ∧ (s'.cmds.cell 0).isSome = true) (fun _ => False))
      (fun _ => False) := by
  decide +kernel

end SyncState

end AndroidEmu.Sync
