import AndroidEmu.CS.ByteStream
import AndroidEmu.CS.OrderedMap

/-!
# Host mappings of DMA buffers

`DmaMap` of `host-common/DmaMap.cpp`. A call of `doMap` gives any address, which is an input here.
The table is walked in the order of the addresses; the results do not depend on it. Adding a buffer
writes over the entry that is there, and loading a snapshot clears the table. The mappings of these
entries are lost.
-/

namespace AndroidEmu.HostCommon

open CS List OrderedMap

structure DmaBufferInfo where
  hwpipe : ℕ
  guestAddr : ℕ
  bufferSize : ℕ
  currHostAddr : Option ℕ
  deriving DecidableEq

/-- A call of `doMap`, with the address that it returned, or of `doUnmap`. -/
inductive MapCall
  | map (addr bufferSize mapped : ℕ)
  | unmap (mapped bufferSize : ℕ)
  deriving DecidableEq

/-- `DmaMap`, and the calls that were made so far. -/
structure DmaMap where
  buffers : List (ℕ × DmaBufferInfo)
  calls : List MapCall

/-- `DmaMap::removeMappingLocked`: the entry, and the call. -/
def removeMappingLocked (info : DmaBufferInfo) : DmaBufferInfo × List MapCall :=
  match info.currHostAddr with
  | some mapped => ({ info with currHostAddr := none }, [.unmap mapped info.bufferSize])
  | none => (info, [])

namespace DmaMap

def new : DmaMap := ⟨[], []⟩

/-- `DmaMap::createMappingLocked`, if `doMap` returns `mapped`, and the store of the entry. -/
def createMappingLocked (m : DmaMap) (key : ℕ) (info : DmaBufferInfo) (mapped : ℕ) : DmaMap where
  buffers := OrderedMap.set m.buffers key { info with currHostAddr := some mapped }
  calls := m.calls ++ [.map info.guestAddr info.bufferSize mapped]

/-- `DmaMap::addBuffer`. -/
def addBuffer (m : DmaMap) (hwpipe guestPaddr bufferSize mapped : ℕ) : DmaMap :=
  m.createMappingLocked guestPaddr ⟨hwpipe, guestPaddr, bufferSize, none⟩ mapped

/-- `DmaMap::removeBuffer`. -/
def removeBuffer (m : DmaMap) (guestPaddr : ℕ) : DmaMap :=
  match OrderedMap.get m.buffers guestPaddr with
  | some info =>
    ⟨OrderedMap.erase m.buffers guestPaddr, m.calls ++ (removeMappingLocked info).2⟩
  | none => m

/-- `DmaMap::getHostAddr`. -/
def getHostAddr (m : DmaMap) (guestPaddr mapped : ℕ) : DmaMap × ℕ :=
  match OrderedMap.get m.buffers guestPaddr with
  | some info =>
    match info.currHostAddr with
    | some addr => (m, addr)
    | none => (m.createMappingLocked guestPaddr info mapped, mapped)
  | none => (m, 0)

/-- `DmaMap::invalidateHostMappings`. -/
def invalidateHostMappings (m : DmaMap) : DmaMap where
  buffers := m.buffers.map fun p => (p.1, (removeMappingLocked p.2).1)
  calls := m.calls ++ m.buffers.flatMap fun p => (removeMappingLocked p.2).2

/-- `DmaMap::resetHostMappings`. -/
def resetHostMappings (m : DmaMap) : DmaMap := { m.invalidateHostMappings with buffers := [] }

/-- An entry that is there stays. -/
def emplace (buffers : List (ℕ × DmaBufferInfo)) (p : ℕ × DmaBufferInfo) :
    List (ℕ × DmaBufferInfo) :=
  if (OrderedMap.get buffers p.1).isSome then buffers else OrderedMap.set buffers p.1 p.2

/-- A buffer of a snapshot. -/
def loadBuffer (pipeLookupById : ℕ → ℕ) (bs : Bytes) : (ℕ × DmaBufferInfo) × Bytes :=
  let (gpa, bs) := getBe 8 bs
  let (pipeId, bs) := getBe 4 bs
  let (guestAddr, bs) := getBe 8 bs
  let (bufferSize, bs) := getBe 8 bs
  ((gpa, ⟨pipeLookupById pipeId, guestAddr, bufferSize, none⟩), bs)

/-- A count from `2 ^ 31` on is negative. -/
def load (m : DmaMap) (pipeLookupById : ℕ → ℕ) (stream : Bytes) : DmaMap where
  buffers :=
    let size := getBe 4 stream
    let n := if size.1 < 2 ^ 31 then size.1 else 0
    (getMany (loadBuffer pipeLookupById) n size.2).1.foldl emplace []
  calls := m.calls

end DmaMap

/-- An operation. Those that may call `doMap` have the address that it returns. -/
inductive DmaOp
  | addBuffer (hwpipe guestPaddr bufferSize mapped : ℕ)
  | removeBuffer (guestPaddr : ℕ)
  | getHostAddr (guestPaddr mapped : ℕ)
  | invalidateHostMappings
  | resetHostMappings
  | save
  | load (pipeLookupById : ℕ → ℕ) (stream : Bytes)

def DmaMap.step (m : DmaMap) : DmaOp → DmaMap
  | .addBuffer hwpipe guestPaddr bufferSize mapped =>
    m.addBuffer hwpipe guestPaddr bufferSize mapped
  | .removeBuffer guestPaddr => m.removeBuffer guestPaddr
  | .getHostAddr guestPaddr mapped => (m.getHostAddr guestPaddr mapped).1
  | .invalidateHostMappings => m.invalidateHostMappings
  | .resetHostMappings => m.resetHostMappings
  | .save => m
  | .load pipeLookupById stream => m.load pipeLookupById stream

def dmaMapAfter : List DmaOp → DmaMap
  | [] => .new
  | op :: past => (dmaMapAfter past).step op

/-! ### Mappings -/

structure Mapping where
  guestAddr : ℕ
  bufferSize : ℕ
  mapped : ℕ
  deriving DecidableEq

/-- The mapping that an entry holds. -/
def DmaBufferInfo.mapping? (info : DmaBufferInfo) : Option Mapping :=
  info.currHostAddr.map fun mapped => ⟨info.guestAddr, info.bufferSize, mapped⟩

def liveMappings (buffers : List (ℕ × DmaBufferInfo)) : Multiset Mapping :=
  ↑(buffers.filterMap fun p => p.2.mapping?)

/-- The mapping that a call makes. -/
def MapCall.made? : MapCall → Option Mapping
  | .map addr bufferSize mapped => some ⟨addr, bufferSize, mapped⟩
  | .unmap _ _ => none

/-- The address and the size that a call undoes. -/
def MapCall.undone? : MapCall → Option (ℕ × ℕ)
  | .map _ _ _ => none
  | .unmap mapped bufferSize => some (mapped, bufferSize)

def mappingsMade (calls : List MapCall) : Multiset Mapping := ↑(calls.filterMap MapCall.made?)

def mappingsUndone (calls : List MapCall) : Multiset (ℕ × ℕ) := ↑(calls.filterMap MapCall.undone?)

/-- What `doUnmap` is told of a mapping. -/
def Mapping.undoing (m : Mapping) : ℕ × ℕ := (m.mapped, m.bufferSize)

/-- The mappings made are those that the entries hold, each its own, and others that were undone,
each once. -/
def Balanced (m : DmaMap) : Prop :=
  ∃ gone : Multiset Mapping, mappingsMade m.calls = liveMappings m.buffers + gone ∧
    gone.map Mapping.undoing = mappingsUndone m.calls

/-- The mappings whose entries an operation takes away without undoing them. -/
def DmaMap.dropped (m : DmaMap) : DmaOp → Multiset Mapping
  | .addBuffer _ guestPaddr _ _ =>
    ↑((OrderedMap.get m.buffers guestPaddr).bind DmaBufferInfo.mapping?).toList
  | .load _ _ => liveMappings m.buffers
  | _ => 0

/-- The mappings that nothing holds any more. -/
def mappingsLost : List DmaOp → Multiset Mapping
  | [] => 0
  | op :: past => mappingsLost past + (dmaMapAfter past).dropped op

/-! ### Accounts of the mappings -/

section Accounts

variable {buffers : List (ℕ × DmaBufferInfo)} {key : ℕ} {info : DmaBufferInfo}

theorem liveMappings_cons (p : ℕ × DmaBufferInfo) (buffers : List (ℕ × DmaBufferInfo)) :
    liveMappings (p :: buffers) = ↑p.2.mapping?.toList + liveMappings buffers := by
  rw [liveMappings, liveMappings, filterMap_cons]
  cases p.2.mapping? with
  | none => simp
  | some m => simp

theorem liveMappings_perm {buffers' : List (ℕ × DmaBufferInfo)} (h : buffers.Perm buffers') :
    liveMappings buffers = liveMappings buffers' :=
  Multiset.coe_eq_coe.mpr (h.filterMap _)

open DmaBufferInfo

theorem liveMappings_eq_add_erase (h : Sorted buffers) (key : ℕ) : liveMappings buffers =
      ↑((get buffers key).bind mapping?).toList + liveMappings (erase buffers key) := by
  cases hget : get buffers key with
  | none =>
    rw [erase_of_get_eq_none hget]
    exact (zero_add _).symm
  | some info =>
    have hmem := (get_eq_some h).mp hget
    rw [liveMappings_perm (h.perm_cons_erase hmem), liveMappings_cons]
    rfl

theorem liveMappings_set (h : Sorted buffers) (key : ℕ) (info : DmaBufferInfo) :
    liveMappings (set buffers key info) =
      ↑info.mapping?.toList + liveMappings (erase buffers key) := by
  rw [liveMappings_perm (h.set_perm key info), liveMappings_cons]

theorem liveMappings_eq_zero (h : ∀ p ∈ buffers, p.2.currHostAddr = none) :
    liveMappings buffers = 0 := by
  rw [liveMappings, filterMap_eq_nil_iff.mpr]
  · rfl
  · intro p hp
    rw [mapping?, h p hp]
    rfl

theorem made_append (calls calls' : List MapCall) :
    mappingsMade (calls ++ calls') = mappingsMade calls + mappingsMade calls' := by
  rw [mappingsMade, filterMap_append]
  rfl

theorem undone_append (calls calls' : List MapCall) :
    mappingsUndone (calls ++ calls') = mappingsUndone calls + mappingsUndone calls' := by
  rw [mappingsUndone, filterMap_append]
  rfl

theorem removeMappingLocked_calls (info : DmaBufferInfo) :
    mappingsMade (removeMappingLocked info).2 = 0 ∧
      mappingsUndone (removeMappingLocked info).2 =
        (↑info.mapping?.toList : Multiset Mapping).map Mapping.undoing ∧
      (removeMappingLocked info).1.currHostAddr = none := by
  cases haddr : info.currHostAddr with
  | none => simp [removeMappingLocked, mapping?, haddr, mappingsMade, mappingsUndone]
  | some mapped =>
    simp [removeMappingLocked, mapping?, haddr, mappingsMade, mappingsUndone, MapCall.made?,
      MapCall.undone?, Mapping.undoing]

theorem removeMappings_calls (buffers : List (ℕ × DmaBufferInfo)) :
    mappingsMade (buffers.flatMap fun p => (removeMappingLocked p.2).2) = 0 ∧
      mappingsUndone (buffers.flatMap fun p => (removeMappingLocked p.2).2) =
        (liveMappings buffers).map Mapping.undoing := by
  induction buffers with
  | nil => exact ⟨rfl, rfl⟩
  | cons p buffers ih =>
    obtain ⟨hmade, hundone, -⟩ := removeMappingLocked_calls p.2
    rw [flatMap_cons, made_append, undone_append, hmade, hundone, ih.1, ih.2,
      liveMappings_cons, Multiset.map_add]
    exact ⟨zero_add 0, rfl⟩

theorem foldl_emplace (ps : List (ℕ × DmaBufferInfo)) (hps : ∀ p ∈ ps, p.2.currHostAddr = none) :
    ∀ {buffers : List (ℕ × DmaBufferInfo)}, Sorted buffers →
      (∀ p ∈ buffers, p.2.currHostAddr = none) →
      Sorted (ps.foldl DmaMap.emplace buffers) ∧
        ∀ p ∈ ps.foldl DmaMap.emplace buffers, p.2.currHostAddr = none := by
  induction ps with
  | nil => exact fun hsorted hnone => ⟨hsorted, hnone⟩
  | cons p ps ih =>
    intro buffers hsorted hnone
    apply ih fun q hq => hps q (mem_cons_of_mem p hq)
    · rw [DmaMap.emplace]
      split_ifs
      · exact hsorted
      · exact hsorted.set _ _
    · rw [DmaMap.emplace]
      split_ifs
      · exact hnone
      · intro q hq
        obtain rfl | ⟨hq, -⟩ := (mem_set hsorted).mp hq
        · exact hps p mem_cons_self
        · exact hnone q hq

theorem getMany_loadBuffer (pipeLookupById : ℕ → ℕ) (n : ℕ) :
    ∀ (stream : Bytes), ∀ p ∈ (getMany (DmaMap.loadBuffer pipeLookupById) n stream).1,
      p.2.currHostAddr = none := by
  induction n with
  | zero => exact fun _ _ hp => absurd hp not_mem_nil
  | succ n ih =>
    intro stream p hp
    obtain rfl | hp := mem_cons.mp hp
    · rfl
    · exact ih _ p hp

end Accounts

section Steps

variable {m : DmaMap}

@[simp] theorem load_calls (m : DmaMap) (pipeLookupById : ℕ → ℕ) (stream : Bytes) :
    (m.load pipeLookupById stream).calls = m.calls := by
  rw [DmaMap.load]

theorem load_spec (m : DmaMap) (pipeLookupById : ℕ → ℕ) (stream : Bytes) :
    Sorted (m.load pipeLookupById stream).buffers ∧
      liveMappings (m.load pipeLookupById stream).buffers = 0 := by
  obtain ⟨hsorted, hnone⟩ := foldl_emplace _ (getMany_loadBuffer pipeLookupById _ _)
    List.Pairwise.nil (by simp)
  exact ⟨hsorted, liveMappings_eq_zero hnone⟩

theorem createMappingLocked_account (h : Sorted m.buffers) (key : ℕ) (info : DmaBufferInfo)
    (mapped : ℕ) : let a : Multiset Mapping := {⟨info.guestAddr, info.bufferSize, mapped⟩}
    mappingsMade (m.createMappingLocked key info mapped).calls = mappingsMade m.calls + a ∧
      mappingsUndone (m.createMappingLocked key info mapped).calls = mappingsUndone m.calls ∧
      liveMappings m.buffers + a = liveMappings (m.createMappingLocked key info mapped).buffers +
        ↑((get m.buffers key).bind DmaBufferInfo.mapping?).toList := by
  refine ⟨made_append _ _, ?_, ?_⟩
  · rw [DmaMap.createMappingLocked, undone_append]
    exact add_zero _
  · have hnew : (↑({ info with currHostAddr := some mapped } : DmaBufferInfo).mapping?.toList :
        Multiset Mapping) = {⟨info.guestAddr, info.bufferSize, mapped⟩} := rfl
    rw [DmaMap.createMappingLocked, liveMappings_set h, liveMappings_eq_add_erase h key]
    abel

/-- What an operation does: mappings are made and undone, and what was held before or is made is
held afterwards, undone or dropped. -/
theorem step_account (h : Sorted m.buffers) (op : DmaOp) :
    ∃ a u : Multiset Mapping, mappingsMade (m.step op).calls = mappingsMade m.calls + a ∧
      mappingsUndone (m.step op).calls = mappingsUndone m.calls + u.map Mapping.undoing ∧
      liveMappings m.buffers + a = liveMappings (m.step op).buffers + u + m.dropped op := by
  have unchanged : ∀ op, m.step op = m → m.dropped op = 0 →
      ∃ a u : Multiset Mapping, mappingsMade (m.step op).calls = mappingsMade m.calls + a ∧
        mappingsUndone (m.step op).calls = mappingsUndone m.calls + u.map Mapping.undoing ∧
        liveMappings m.buffers + a = liveMappings (m.step op).buffers + u + m.dropped op := by
    intro op hstep hdropped
    exact ⟨0, 0, by rw [hstep, add_zero], by rw [hstep, Multiset.map_zero, add_zero],
      by rw [hstep, hdropped, add_zero, add_zero]⟩
  cases op with
  | addBuffer hwpipe guestPaddr bufferSize mapped =>
    obtain ⟨hmade, hundone, hlive⟩ := createMappingLocked_account h guestPaddr
      ⟨hwpipe, guestPaddr, bufferSize, none⟩ mapped
    exact ⟨_, 0, hmade, hundone.trans (add_zero _).symm, hlive.trans (by rw [add_zero]; rfl)⟩
  | removeBuffer guestPaddr =>
    cases hget : get m.buffers guestPaddr with
    | none => exact unchanged _ (by simp [DmaMap.step, DmaMap.removeBuffer, hget]) rfl
    | some info =>
      have hstep : m.step (.removeBuffer guestPaddr) =
          ⟨erase m.buffers guestPaddr, m.calls ++ (removeMappingLocked info).2⟩ := by
        simp [DmaMap.step, DmaMap.removeBuffer, hget]
      obtain ⟨hmade, hundone, -⟩ := removeMappingLocked_calls info
      refine ⟨0, ↑info.mapping?.toList, ?_, ?_, ?_⟩
      · rw [hstep, made_append, hmade]
      · rw [hstep, undone_append, hundone]
      · rw [hstep, liveMappings_eq_add_erase h guestPaddr, hget, add_zero, add_comm]
        exact (add_zero _).symm
  | getHostAddr guestPaddr mapped =>
    cases hget : get m.buffers guestPaddr with
    | none => exact unchanged _ (by simp [DmaMap.step, DmaMap.getHostAddr, hget]) rfl
    | some info =>
      cases haddr : info.currHostAddr with
      | some addr => exact unchanged _ (by simp [DmaMap.step, DmaMap.getHostAddr, hget, haddr]) rfl
      | none =>
        have hstep : m.step (.getHostAddr guestPaddr mapped) =
            m.createMappingLocked guestPaddr info mapped := by
          simp [DmaMap.step, DmaMap.getHostAddr, hget, haddr]
        obtain ⟨hmade, hundone, hlive⟩ := createMappingLocked_account h guestPaddr info mapped
        rw [hget, Option.bind_some, DmaBufferInfo.mapping?, haddr] at hlive
        rw [hstep]
        exact ⟨_, 0, hmade, hundone.trans (add_zero _).symm, hlive.trans (add_zero _).symm⟩
  | invalidateHostMappings =>
    obtain ⟨hmade, hundone⟩ := removeMappings_calls m.buffers
    have hlive : liveMappings m.invalidateHostMappings.buffers = 0 := by
      apply liveMappings_eq_zero
      intro p hp
      obtain ⟨q, -, rfl⟩ := List.mem_map.mp hp
      exact (removeMappingLocked_calls q.2).2.2
    refine ⟨0, liveMappings m.buffers, ?_, ?_, ?_⟩
    · rw [DmaMap.step, DmaMap.invalidateHostMappings, made_append, hmade]
    · rw [DmaMap.step, DmaMap.invalidateHostMappings, undone_append, hundone]
    · rw [DmaMap.step, hlive, zero_add]
      rfl
  | resetHostMappings =>
    obtain ⟨hmade, hundone⟩ := removeMappings_calls m.buffers
    refine ⟨0, liveMappings m.buffers, ?_, ?_, ?_⟩
    · rw [DmaMap.step, DmaMap.resetHostMappings, DmaMap.invalidateHostMappings, made_append, hmade]
    · rw [DmaMap.step, DmaMap.resetHostMappings, DmaMap.invalidateHostMappings, undone_append,
        hundone]
    · exact (zero_add _).symm
  | save => exact unchanged _ rfl rfl
  | load pipeLookupById stream =>
    obtain ⟨-, hlive⟩ := load_spec m pipeLookupById stream
    refine ⟨0, 0, ?_, ?_, ?_⟩
    · rw [DmaMap.step, load_calls, add_zero]
    · rw [DmaMap.step, load_calls, Multiset.map_zero, add_zero]
    · rw [DmaMap.step, hlive, add_zero, zero_add, zero_add, DmaMap.dropped]

theorem sorted_step (h : Sorted m.buffers) (op : DmaOp) : Sorted (m.step op).buffers := by
  cases op with
  | addBuffer hwpipe guestPaddr bufferSize mapped => exact h.set _ _
  | removeBuffer guestPaddr =>
    rw [DmaMap.step, DmaMap.removeBuffer]
    split
    · exact h.erase _
    · exact h
  | getHostAddr guestPaddr mapped =>
    rw [DmaMap.step, DmaMap.getHostAddr]
    split
    · split
      · exact h
      · exact h.set _ _
    · exact h
  | invalidateHostMappings => exact pairwise_map.mpr h
  | resetHostMappings => exact List.Pairwise.nil
  | save => exact h
  | load pipeLookupById stream => exact (load_spec m pipeLookupById stream).1

end Steps

theorem sorted_dmaMapAfter (past : List DmaOp) : Sorted (dmaMapAfter past).buffers := by
  induction past with
  | nil => exact List.Pairwise.nil
  | cons op past ih => exact sorted_step ih op

theorem made_eq (past : List DmaOp) : ∃ gone : Multiset Mapping,
      mappingsMade (dmaMapAfter past).calls =
        liveMappings (dmaMapAfter past).buffers + gone + mappingsLost past ∧
        gone.map Mapping.undoing = mappingsUndone (dmaMapAfter past).calls := by
  induction past with
  | nil => exact ⟨0, rfl, rfl⟩
  | cons op past ih =>
    obtain ⟨gone, hmade, hgone⟩ := ih
    obtain ⟨a, u, hmade', hundone', hlive⟩ := step_account (sorted_dmaMapAfter past) op
    refine ⟨gone + u, ?_, ?_⟩
    · calc mappingsMade (dmaMapAfter (op :: past)).calls
          = liveMappings (dmaMapAfter past).buffers + gone + mappingsLost past + a := by
            rw [dmaMapAfter, hmade', hmade]
        _ = liveMappings (dmaMapAfter past).buffers + a + gone + mappingsLost past := by abel
        _ = liveMappings (dmaMapAfter (op :: past)).buffers + (gone + u) + mappingsLost
          (op :: past) := by
            rw [hlive, mappingsLost, dmaMapAfter]
            abel
    · rw [Multiset.map_add, hgone, dmaMapAfter, hundone']

theorem balanced_iff_lost (past : List DmaOp) :
    Balanced (dmaMapAfter past) ↔ mappingsLost past = 0 := by
  obtain ⟨gone, hmade, hgone⟩ := made_eq past
  constructor
  · rintro ⟨gone', hmade', hgone'⟩
    have hcard := congrArg Multiset.card (hmade.symm.trans hmade')
    have hundone := congrArg Multiset.card (hgone.trans hgone'.symm)
    rw [Multiset.card_add, Multiset.card_add, Multiset.card_add] at hcard
    rw [Multiset.card_map, Multiset.card_map] at hundone
    apply Multiset.card_eq_zero.mp
    omega
  · intro hlost
    exact ⟨gone, by rw [hmade, hlost, add_zero], hgone⟩

/-- What is asked of the table at every moment: the mappings are balanced, and a registered address
has the mapping that is returned for it. -/
structure DmaServes (h : List DmaOp) : Prop where
  balanced : ∀ past, past <:+ h → Balanced (dmaMapAfter past)
  getHostAddr_eq : ∀ guestPaddr mapped past, .getHostAddr guestPaddr mapped :: past <:+ h →
    ∀ info, OrderedMap.get (dmaMapAfter past).buffers guestPaddr = some info →
      ∃ info', OrderedMap.get (dmaMapAfter (.getHostAddr guestPaddr mapped :: past)).buffers
          guestPaddr = some info' ∧
        info'.currHostAddr = some ((dmaMapAfter past).getHostAddr guestPaddr mapped).2 ∧
        (∀ addr, info.currHostAddr = some addr → info' = info)

/-- A buffer is added at an address only if there is no mapping there, and a snapshot is loaded only
into a table without mappings. -/
def DmaOrderly (h : List DmaOp) : Prop :=
  ∀ op past, op :: past <:+ h → match op with
    | .addBuffer _ guestPaddr _ _ => ∀ info,
        OrderedMap.get (dmaMapAfter past).buffers guestPaddr = some info → info.currHostAddr = none
    | .load _ _ => ∀ p ∈ (dmaMapAfter past).buffers, p.2.currHostAddr = none
    | _ => True

theorem dropped_eq_zero_iff (m : DmaMap) (op : DmaOp) : m.dropped op = 0 ↔ match op with
      | .addBuffer _ guestPaddr _ _ => ∀ info,
          get m.buffers guestPaddr = some info → info.currHostAddr = none
      | .load _ _ => ∀ p ∈ m.buffers, p.2.currHostAddr = none
      | _ => True := by
  cases op with
  | addBuffer hwpipe guestPaddr bufferSize mapped =>
    cases hget : get m.buffers guestPaddr with
    | none => simp [DmaMap.dropped, hget]
    | some info => simp [DmaMap.dropped, hget, DmaBufferInfo.mapping?]
  | load pipeLookupById stream =>
    simp [DmaMap.dropped, liveMappings, filterMap_eq_nil_iff, DmaBufferInfo.mapping?]
  | _ => exact iff_of_true rfl trivial

theorem lost_eq_zero_iff (h : List DmaOp) :
    mappingsLost h = 0 ↔ ∀ op past, op :: past <:+ h → (dmaMapAfter past).dropped op = 0 := by
  induction h with
  | nil => simp [mappingsLost]
  | cons op h ih =>
    rw [mappingsLost, add_eq_zero, ih]
    constructor
    · rintro ⟨hpast, hop⟩ op' past hsuffix
      obtain heq | hsuffix := suffix_cons_iff.mp hsuffix
      · obtain ⟨rfl, rfl⟩ := cons.inj heq
        exact hop
      · exact hpast op' past hsuffix
    · intro hall
      exact ⟨fun op' past hsuffix => hall op' past (hsuffix.trans (suffix_cons op h)),
        hall op h suffix_rfl⟩

theorem getHostAddr_spec {m : DmaMap} (h : Sorted m.buffers) (guestPaddr mapped : ℕ)
    {info : DmaBufferInfo} (hget : get m.buffers guestPaddr = some info) :
    ∃ info', get (m.getHostAddr guestPaddr mapped).1.buffers guestPaddr = some info' ∧
      info'.currHostAddr = some (m.getHostAddr guestPaddr mapped).2 ∧
      ∀ addr, info.currHostAddr = some addr → info' = info := by
  cases haddr : info.currHostAddr with
  | some addr =>
    have hcall : m.getHostAddr guestPaddr mapped = (m, addr) := by
      simp [DmaMap.getHostAddr, hget, haddr]
    rw [hcall]
    exact ⟨info, hget, haddr, fun _ _ => rfl⟩
  | none =>
    have hcall : m.getHostAddr guestPaddr mapped =
        (m.createMappingLocked guestPaddr info mapped, mapped) := by
      simp [DmaMap.getHostAddr, hget, haddr]
    rw [hcall]
    refine ⟨{ info with currHostAddr := some mapped }, ?_, rfl, fun _ h => by cases h⟩
    exact (get_eq_some (h.set _ _)).mpr ((mem_set h).mpr (.inl rfl))

/-- In every sequence of operations, the mappings are balanced at every moment and the address of
each registered buffer is that of its mapping, if and only if no buffer is added over a mapping and
no snapshot is loaded over one. -/
theorem dmaServes_iff_orderly (h : List DmaOp) : DmaServes h ↔ DmaOrderly h := by
  have horderly : DmaOrderly h ↔ mappingsLost h = 0 := by
    rw [lost_eq_zero_iff]
    exact forall₃_congr fun op past _ => (dropped_eq_zero_iff (dmaMapAfter past) op).symm
  constructor
  · intro hs
    rw [horderly, ← balanced_iff_lost]
    exact hs.balanced h suffix_rfl
  · intro ho
    refine ⟨fun past hsuffix => ?_, fun guestPaddr mapped past _ info hget => ?_⟩
    · rw [balanced_iff_lost, lost_eq_zero_iff]
      exact fun op past' hsuffix' => (lost_eq_zero_iff h).mp (horderly.mp ho) op past'
        (hsuffix'.trans hsuffix)
    · exact getHostAddr_spec (sorted_dmaMapAfter past) guestPaddr mapped hget

/-- A buffer that is added twice, and a snapshot that is loaded over a buffer: the first mapping is
neither held nor undone. -/
theorem mapping_is_lost :
    ¬ DmaServes [.addBuffer 1 0x1000 16 0x8000, .addBuffer 1 0x1000 16 0x7000] ∧
      ¬ DmaServes [.load id [0, 0, 0, 0], .addBuffer 1 0x1000 16 0x7000] := by
  have unbalanced : ∀ {h : List DmaOp}, Multiset.card (mappingsMade (dmaMapAfter h).calls) ≠
      Multiset.card (liveMappings (dmaMapAfter h).buffers) +
        Multiset.card (mappingsUndone (dmaMapAfter h).calls) → ¬ DmaServes h := by
    intro h hne hs
    obtain ⟨gone, hmade, hgone⟩ := hs.balanced h suffix_rfl
    apply hne
    rw [hmade, ← hgone, Multiset.card_add, Multiset.card_map]
  exact ⟨unbalanced (by decide +kernel), unbalanced (by decide +kernel)⟩

end AndroidEmu.HostCommon
