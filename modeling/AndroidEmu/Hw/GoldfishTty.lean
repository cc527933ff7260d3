import AndroidEmu.CS.Checked
import AndroidEmu.CS.Ring

/-!
# The terminal device

`hw/char/goldfish_tty.c`: what the host sends waits in a buffer of 128 bytes until the guest reads
it. The interrupt line is set only where its level can change.
-/

namespace AndroidEmu.Hw

open CS List

/-- `tty_state`, with the level of `irq`. -/
structure TtyState where
  ptr : ℕ
  ptrLen : ℕ
  ready : Bool
  data : ℕ → UInt8
  dataCount : ℕ
  irq : Bool

/-- What the host sends, and a write of the guest to a register, with how much of the guest's
buffer can be mapped. -/
inductive TtyInput
  | receive (buf : List UInt8)
  | write (offset value mapped : ℕ)

/-- The bytes that the host sends. -/
def TtyInput.sent : TtyInput → List UInt8
  | .receive buf => buf
  | .write .. => []

/-- The number of bytes that the guest asks for and has room for: only a read of the buffer asks. -/
def TtyInput.wanted (ptrLen : ℕ) : TtyInput → ℕ
  | .write 0x08 3 mapped => min ptrLen mapped
  | _ => 0

namespace TtyState

def dataSize : ℕ := 128

/-- `tty_can_receive`. -/
def canReceive (s : TtyState) : ℕ := dataSize - s.dataCount

/-- `tty_receive`. -/
def receive (s : TtyState) (buf : List UInt8) : Checked (TtyState × List UInt8) :=
  let dataCount := s.dataCount + buf.length
  if dataSize < dataCount then .error .bufferOverrun
  else .ok ({ s with
    data := putCells s.data s.dataCount buf
    dataCount := dataCount
    irq := if 0 < dataCount ∧ s.ready then true else s.irq }, [])

/-- `TTY_CMD_READ_BUFFER`, and what the guest reads. -/
def readBuffer (s : TtyState) (mapped : ℕ) : Checked (TtyState × List UInt8) :=
  let l := min s.ptrLen mapped
  let dataCount := s.dataCount - l
  if s.dataCount < s.ptrLen then .error .exit
  else .ok ({ s with
    data := putCells s.data 0 (takeCells s.data l dataCount)
    dataCount := dataCount
    irq := if dataCount = 0 ∧ s.ready then false else s.irq }, takeCells s.data 0 l)

/-- `TTY_CMD`. What the guest writes goes to the host. -/
def command (s : TtyState) (mapped : ℕ) : ℕ → Checked (TtyState × List UInt8)
  | 0 => .ok (if s.ready then
      { s with ready := false, irq := if 0 < s.dataCount then false else s.irq } else s, [])
  | 1 => .ok (if s.ready then s else
      { s with ready := true, irq := if 0 < s.dataCount then true else s.irq }, [])
  | 2 => .ok (s, [])
  | 3 => s.readBuffer mapped
  | _ => .error .exit

/-- `tty_receive` and `goldfish_tty_write`, and what the guest reads. -/
def step (s : TtyState) : TtyInput → Checked (TtyState × List UInt8)
  | .receive buf => s.receive buf
  | .write 0x00 _ _ => .ok (s, [])
  | .write 0x08 value mapped => s.command mapped value
  | .write 0x10 value _ => .ok ({ s with ptr := s.ptr / 2 ^ 32 * 2 ^ 32 + value % 2 ^ 32 }, [])
  | .write 0x14 value _ => .ok ({ s with ptrLen := value % 2 ^ 32 }, [])
  | .write 0x18 value _ => .ok ({ s with ptr := value % 2 ^ 32 * 2 ^ 32 + s.ptr % 2 ^ 32 }, [])
  | .write .. => .error .exit

/-- The host sends what the device can take, and the guest reads what is there. -/
def Allowed (s : TtyState) : TtyInput → Prop
  | .receive buf => buf.length ≤ s.canReceive
  | .write offset value _ => offset ∈ [0x00, 0x08, 0x10, 0x14, 0x18] ∧
    (offset = 0x08 → value ≤ 3 ∧ (value = 3 → s.ptrLen ≤ s.dataCount))

instance (s : TtyState) : ∀ i, Decidable (s.Allowed i)
  | .receive buf => Nat.decLe buf.length s.canReceive
  | .write .. => instDecidableAnd

/-- The bytes wait in the device, and the line has the level it should have. -/
structure Holds (s : TtyState) (waiting : List UInt8) : Prop where
  data_eq : takeCells s.data 0 s.dataCount = waiting
  count_le : s.dataCount ≤ dataSize
  irq_iff : s.irq ↔ s.ready ∧ 0 < s.dataCount

section Step

variable {s : TtyState} {waiting : List UInt8} (h : s.Holds waiting)

include h

theorem Holds.receive {buf : List UInt8} (hbuf : buf.length ≤ s.canReceive) :
    ∃ s', s.receive buf = .ok (s', []) ∧ s'.Holds (waiting ++ buf) := by
  obtain ⟨hdata, hle, hirq⟩ := h
  rw [canReceive] at hbuf
  refine ⟨_, if_neg (by omega), ?_, by dsimp only; omega, ?_⟩
  · rw [takeCells_putCells_before, hdata]
  · cases hready : s.ready <;> simp_all

theorem Holds.readBuffer (hlen : s.ptrLen ≤ s.dataCount) (mapped : ℕ) :
    ∃ s', s.readBuffer mapped = .ok (s', waiting.take (min s.ptrLen mapped)) ∧
      s'.Holds (waiting.drop (min s.ptrLen mapped)) := by
  obtain ⟨hdata, hle, hirq⟩ := h
  have hl : min s.ptrLen mapped ≤ s.dataCount := by omega
  rw [TtyState.readBuffer]
  generalize min s.ptrLen mapped = l at hl
  have hsplit := takeCells_add s.data 0 l (s.dataCount - l)
  rw [Nat.zero_add, Nat.add_sub_cancel' hl, hdata] at hsplit
  rw [hsplit, take_left' (length_takeCells ..), drop_left' (length_takeCells ..)]
  refine ⟨_, if_neg (by omega), ?_, by dsimp only; omega, ?_⟩
  · have hback := takeCells_putCells s.data 0 (takeCells s.data l (s.dataCount - l))
    rwa [length_takeCells] at hback
  · cases hready : s.ready <;> simp_all
    omega

theorem Holds.step {i : TtyInput} (hi : s.Allowed i) :
    ∃ s', s.step i = .ok (s', waiting.take (i.wanted s.ptrLen)) ∧
      s'.Holds (waiting.drop (i.wanted s.ptrLen) ++ i.sent) := by
  cases i with
  | receive buf => exact h.receive hi
  | write offset value mapped =>
    obtain ⟨hoffset, hcmd⟩ := hi
    rw [TtyInput.sent, append_nil]
    fin_cases hoffset
    case «1» =>
      obtain ⟨hvalue, hread⟩ := hcmd rfl
      interval_cases value
      case «3» => exact h.readBuffer (hread rfl) mapped
      all_goals
        refine ⟨_, rfl, ?_⟩
        cases hready : s.ready <;> constructor <;>
          simp_all [TtyInput.wanted, h.data_eq, h.count_le, h.irq_iff]
    all_goals exact ⟨_, rfl, h.data_eq, h.count_le, h.irq_iff⟩

end Step

/-- The buffer never holds more than it has room for, the line is high when a device that is ready
has something to read, and what the guest reads is what the host sent, in order: the next input gets
the first of the bytes that wait, as many as it asks for. -/
theorem tty_reads_what_was_sent (ptr ptrLen : ℕ) (data : ℕ → UInt8) (inputs : List TtyInput)
    (h : Meets step Allowed ⟨ptr, ptrLen, false, data, 0, false⟩ inputs) :
    ∃ s, (run step ⟨ptr, ptrLen, false, data, 0, false⟩ inputs).2 = .ok s ∧
      s.dataCount ≤ dataSize ∧ (s.irq ↔ s.ready ∧ 0 < s.dataCount) ∧
      (run step ⟨ptr, ptrLen, false, data, 0, false⟩ inputs).1.flatten ++
        takeCells s.data 0 s.dataCount = inputs.flatMap TtyInput.sent ∧
      ∀ i, s.Allowed i → ∃ s', s.step i =
        .ok (s', (takeCells s.data 0 s.dataCount).take (i.wanted s.ptrLen)) := by
  obtain ⟨s, hrun, waiting, hholds, hbytes⟩ := @run_history _ _ _ _ Allowed
    (fun is os s => ∃ waiting, Holds s waiting ∧ os.flatten ++ waiting = is.flatMap TtyInput.sent)
    (by
      rintro is os s i ⟨waiting, hholds, hbytes⟩ hi
      obtain ⟨s', hstep, hholds'⟩ := hholds.step hi
      refine ⟨s', _, hstep, _, hholds', ?_⟩
      simp [← hbytes, ← append_assoc (take ..), take_append_drop])
    inputs [] [] _ ⟨[], ⟨rfl, Nat.zero_le _, by simp⟩, rfl⟩ h
  rw [← hholds.data_eq] at hbytes hholds
  refine ⟨s, hrun, hholds.count_le, hholds.irq_iff, hbytes, fun i hi => ?_⟩
  obtain ⟨s', hstep, -⟩ := hholds.step hi
  exact ⟨s', hstep⟩

/-- Three bytes, of which the guest reads two, the second time with room for one of them. -/
theorem tty_reads_what_was_sent_three : ∃ s, run step ⟨0, 2, false, fun _ => 0, 0, false⟩
      [.receive [7, 8], .write 8 1 0, .receive [9], .write 8 3 1] = ([[], [], [], [7]], .ok s) ∧
    s.dataCount = 2 ∧ s.irq ∧ ∃ s', s.step (.write 8 3 4) = .ok (s', [8, 9]) := by
  obtain ⟨s, hrun, -, hirq, hbytes, hnext⟩ := tty_reads_what_was_sent 0 2 (fun _ => 0)
    [.receive [7, 8], .write 8 1 0, .receive [9], .write 8 3 1] (by decide)
  cases hrun
  exact ⟨_, rfl, rfl, hirq.mpr (by decide), hnext (.write 8 3 4) (by decide)⟩

end TtyState

end AndroidEmu.Hw
