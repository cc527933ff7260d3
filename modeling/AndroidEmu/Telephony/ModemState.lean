import AndroidEmu.CS.ByteStream
import AndroidEmu.CS.Checked

/-!
# The saved state of the modem

`amodem_state_save` of `android/telephony/modem.c` writes the calls from the last to the first and
without their ids. `amodem_state_load` gives each the least free id, so the calls come back in
reverse order, numbered from one. The first call that finds the table full is written through a null
pointer.
-/

namespace AndroidEmu.Telephony

open CS List

def maxCalls : ℕ := 4

def callNumberMaxSize : ℕ := 16

abbrev CallNumber := { bytes : Bytes // bytes.length = callNumberMaxSize + 1 }

/-- `ACallRec` without its id. A direction, a state and a mode are loaded from any byte. A number is
its whole buffer, with what stands behind the terminator. -/
structure Call where
  dir : UInt8
  state : UInt8
  mode : UInt8
  multi : UInt32
  number : CallNumber
  deriving DecidableEq

/-- What `AModemRec` has of the saved state: the live calls, each with its id, and the settings. -/
structure Modem where
  calls : List (Call × ℕ)
  calls_le : calls.length ≤ maxCalls
  radioState : ℕ
  sendPhysChannelCfgUnsol : ℕ
  dataNetwork : ℕ
  dataNetworkRequested : ℕ

namespace Modem

variable (m before : Modem) (bs rest : Bytes)

/-- The id that `amodem_alloc_call` finds. -/
def freeId : ℕ :=
  ((List.range m.calls.length).find? fun id => id + 1 ∉ m.calls.map Prod.snd).getD
    m.calls.length + 1

/-- `amodem_alloc_call`, with what its caller then writes to the call. -/
def allocCall (call : Call) : Option Modem :=
  if h : m.calls.length < maxCalls then
    some { m with calls := m.calls ++ [(call, m.freeId)], calls_le := by simpa using h }
  else none

/-- `amodem_add_inbound_call`; `slot` is what the buffer of the number held. -/
def addInboundCall (slot : CallNumber) (number : Bytes) : Modem :=
  if m.radioState = 0 then m
  else
    let text := number.take callNumberMaxSize
    let buffer : CallNumber := ⟨text ++ 0 :: slot.1.drop (text.length + 1), by
      simp [slot.2, text]; omega⟩
    (m.allocCall ⟨1, 4, 0, 0, buffer⟩).getD m

def putCall (call : Call) : Bytes :=
  call.dir :: call.state :: call.mode :: (putBe 4 call.multi.toNat ++ call.number.1)

/-- `amodem_state_save`. -/
def stateSave : Bytes :=
  UInt8.ofNat m.calls.length :: ((m.calls.map Prod.fst).reverse.flatMap putCall ++
    [m.radioState, m.sendPhysChannelCfgUnsol, m.dataNetwork, m.dataNetworkRequested].map
      UInt8.ofNat)

/-- Read the fields of one call; a stream that ends early reads as zeros. -/
def getCall : Call × Bytes :=
  let dir := getByte bs
  let state := getByte dir.2
  let mode := getByte state.2
  let multi := getBe 4 mode.2
  let size := callNumberMaxSize + 1
  (⟨.ofNat dir.1, .ofNat state.1, .ofNat mode.1, .ofNat multi.1,
    ⟨multi.2.take size ++ .replicate (size - multi.2.length) 0, by simp [size]; omega⟩⟩,
   multi.2.drop size)

/-- The loop of `amodem_state_load` over the calls of the stream. -/
def loadCalls : ℕ → Modem → Bytes → Checked (Modem × Bytes)
  | 0, m, bs => .ok (m, bs)
  | n + 1, m, bs =>
    match m.allocCall (getCall bs).1 with
    | none => .error .nullPointer
    | some m' => loadCalls n m' (getCall bs).2

/-- The settings `amodem_state_load` reads behind the calls; older versions saved none. -/
def loadSettings (version : ℕ) : Modem :=
  if version = 2 then
    let radio := getByte bs
    let unsol := getByte radio.2
    let network := getByte unsol.2
    { m with radioState := radio.1, sendPhysChannelCfgUnsol := unsol.1,
             dataNetwork := network.1, dataNetworkRequested := (getByte network.2).1 }
  else { m with radioState := 1 }

/-- The calls the modem has are freed first. -/
def stateLoad (version : ℕ) : Checked Modem := do
  let count := getByte bs
  let loaded ← loadCalls count.1 { m with calls := [], calls_le := by simp } count.2
  return loaded.1.loadSettings loaded.2 version

variable {m bs}

theorem loadSettings_calls (version : ℕ) : (m.loadSettings bs version).calls = m.calls := by
  unfold loadSettings
  split <;> rfl

theorem getCall_putCall (call : Call) : getCall (putCall call ++ rest) = (call, rest) := by
  obtain ⟨dir, state, mode, multi, number, hnumber⟩ := call
  have hmulti := getBe_putBe 4 (lt_pow_bytes multi.toNat_lt) (number ++ rest)
  simp [getCall, putCall, getByte, hmulti, ← hnumber]

/-- Calls numbered from one leave the next number free. -/
theorem freeId_eq (h : m.calls.map Prod.snd = List.range' 1 m.calls.length) :
    m.freeId = m.calls.length + 1 := by
  have hnone : (List.range m.calls.length).find? (fun id => id + 1 ∉ m.calls.map Prod.snd) =
      none := by
    rw [find?_eq_none, h]
    intro id hid
    simp only [mem_range] at hid
    simp [mem_range'_1]
    omega
  rw [freeId, hnone, Option.getD_none]

/-- Calls are appended under the numbers that follow. -/
theorem loadCalls_putCall (cs : List Call) (hle : m.calls.length + cs.length ≤ maxCalls)
    (hid : m.calls.map Prod.snd = List.range' 1 m.calls.length) :
    ∃ m', loadCalls cs.length m (cs.flatMap putCall ++ rest) = .ok (m', rest) ∧
      m'.calls = m.calls ++ cs.zipIdx (m.calls.length + 1) := by
  induction cs generalizing m with
  | nil => exact ⟨m, rfl, by simp⟩
  | cons c cs ih =>
    simp only [length_cons] at hle
    have hlt : m.calls.length < maxCalls := by omega
    obtain ⟨m', hload, hcalls⟩ := ih (m := { m with
        calls := m.calls ++ [(c, m.freeId)], calls_le := by simpa using hlt })
      (by simp; omega) (by simp [hid, freeId_eq hid, range'_concat, Nat.add_comm])
    refine ⟨m', ?_, by simpa [freeId_eq hid] using hcalls⟩
    simp only [flatMap_cons, append_assoc, length_cons, loadCalls,
      getCall_putCall, allocCall, dif_pos hlt, hload]

/-- What was saved is loaded in reverse and numbered from one. -/
theorem stateLoad_stateSave (m before : Modem) (version : ℕ) :
    ∃ m', before.stateLoad m.stateSave version = .ok m' ∧
      m'.calls = (m.calls.map Prod.fst).reverse.zipIdx 1 := by
  have hcount : (UInt8.ofNat m.calls.length).toNat = m.calls.length :=
    UInt8.toNat_ofNat_of_lt' (lt_of_le_of_lt m.calls_le (by decide))
  obtain ⟨m', hload, hcalls⟩ := loadCalls_putCall
    (m := { before with calls := [], calls_le := by simp })
    ([m.radioState, m.sendPhysChannelCfgUnsol, m.dataNetwork, m.dataNetworkRequested].map
      UInt8.ofNat) (m.calls.map Prod.fst).reverse (by simpa using m.calls_le) rfl
  simp only [length_reverse, length_map] at hload
  refine ⟨_, by simp only [stateLoad, stateSave, getByte, hcount, hload]; rfl, ?_⟩
  simpa [loadSettings_calls] using hcalls

/-- More calls than the table has room for end in the null pointer, and only they do. -/
theorem loadCalls_eq_error_iff (n : ℕ) :
    loadCalls n m bs = .error .nullPointer ↔ maxCalls < m.calls.length + n := by
  induction n generalizing m bs with
  | zero => simpa [loadCalls] using m.calls_le
  | succ n ih =>
    by_cases hlt : m.calls.length < maxCalls
    · simp only [loadCalls, allocCall, dif_pos hlt, ih, length_append, length_singleton]
      omega
    · simp only [loadCalls, allocCall, dif_neg hlt, true_iff]
      omega

/-- A saved modem is restored iff its calls are numbered in order and read the same from both
ends. A stream of too many calls is never refused: it, and it alone, ends in a null pointer. -/
theorem state_load_restores_iff (m before : Modem) (bs : Bytes) (version : ℕ) :
    ((∃ m', before.stateLoad m.stateSave version = .ok m' ∧ m'.calls = m.calls) ↔
      (m.calls.map Prod.fst).reverse = m.calls.map Prod.fst ∧
        m.calls.map Prod.snd = List.range' 1 m.calls.length) ∧
    (before.stateLoad bs version = .error .nullPointer ↔ maxCalls < (getByte bs).1) := by
  refine ⟨?_, ?_⟩
  · obtain ⟨m', hload, hcalls⟩ := stateLoad_stateSave m before version
    simp only [hload, Except.ok.injEq, exists_eq_left', hcalls]
    constructor
    · intro h
      have hfst := congrArg (List.map Prod.fst) h
      have hsnd := congrArg (List.map Prod.snd) h
      simp only [zipIdx_map_fst, zipIdx_map_snd, length_reverse, length_map] at hfst hsnd
      exact ⟨hfst, hsnd.symm⟩
    · rintro ⟨hfst, hsnd⟩
      rw [hfst, zipIdx_eq_zip_range', length_map, ← hsnd]
      exact (zip_of_prod rfl rfl).symm
  · have hfull : loadCalls (getByte bs).1 { before with calls := [], calls_le := by simp }
        (getByte bs).2 = .error .nullPointer ↔ maxCalls < 0 + (getByte bs).1 :=
      loadCalls_eq_error_iff _
    rw [Nat.zero_add] at hfull
    rw [← hfull, stateLoad]
    cases loadCalls (getByte bs).1 _ (getByte bs).2 <;> simp

/-- Two incoming calls come back in the other order, and a stream of five ends in a fault. -/
theorem two_calls_change_places : let idle : Modem := ⟨[], by decide, 1, 0, 0, 0⟩
    let slot : CallNumber := ⟨List.replicate 17 0, rfl⟩
    let m := (idle.addInboundCall slot [49]).addInboundCall slot [50]
    m.calls.map (fun c => (c.1.number.1.head?, c.2)) = [(some 49, 1), (some 50, 2)] ∧
    (idle.stateLoad m.stateSave 2).map
        (fun m' => m'.calls.map fun c => (c.1.number.1.head?, c.2)) =
      .ok [(some 50, 1), (some 49, 2)] ∧
    idle.stateLoad [5] 2 = .error .nullPointer := by
  refine ⟨by decide, by decide, rfl⟩

end Modem

end AndroidEmu.Telephony
