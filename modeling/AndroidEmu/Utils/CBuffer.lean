import AndroidEmu.CS.Checked
import AndroidEmu.CS.Ring

/-!
# Circular buffers

`android/utils/cbuffer.c`. Writes and reads go up to the end of the array at a time; a write goes on
at its start, a reader asks again.
-/

namespace AndroidEmu.Utils

open CS List Nat

/-- `CBuffer`; the array is a function on its indices. -/
structure CBuffer where
  buff : ℕ → UInt8
  size : ℕ
  rpos : ℕ
  count : ℕ

namespace CBuffer

def reset (buff : ℕ → UInt8) (size : ℕ) : CBuffer := ⟨buff, size, 0, 0⟩

/-- Where the next byte is written. -/
def wpos (cb : CBuffer) : ℕ :=
  if cb.size ≤ cb.rpos + cb.count then cb.rpos + cb.count - cb.size else cb.rpos + cb.count

/-- How much of `len` bytes is written without passing the end of the array. -/
def stretch (cb : CBuffer) (len : ℕ) : ℕ :=
  let avail := cb.size - cb.count
  min (if cb.size < cb.wpos + avail then cb.size - cb.wpos else avail) len

/-- The loop of `cbuffer_write`, with the bytes that are left at the end. -/
def writeLoop : ℕ → CBuffer → List UInt8 → Checked (CBuffer × List UInt8)
  | 0, _, _ => .error .endless
  | rounds + 1, cb, data =>
    if data = [] ∨ cb.size - cb.count = 0 then .ok (cb, data)
    else
      let avail := cb.stretch data.length
      if cb.size < cb.wpos + avail then .error .bufferOverrun
      else writeLoop rounds
        { cb with
          buff := putCells cb.buff cb.wpos (data.take avail)
          count := cb.count + avail }
        (data.drop avail)

/-- `cbuffer_write`, with the number of bytes it takes. -/
def write (cb : CBuffer) (data : List UInt8) : Checked (CBuffer × ℕ) := do
  let (cb, rest) ← writeLoop (data.length + 1) cb data
  return (cb, data.length - rest.length)

def readAvail (cb : CBuffer) : ℕ := cb.count

/-- The bytes up to the end of the array. -/
def readPeek (cb : CBuffer) : List UInt8 :=
  takeCells cb.buff cb.rpos (if cb.size < cb.rpos + cb.count then cb.size - cb.rpos else cb.count)

/-- `cbuffer_read_step`. -/
def readStep (cb : CBuffer) (len : ℕ) : CBuffer :=
  let len := min len cb.count
  { cb with
    rpos := if cb.size ≤ cb.rpos + len then cb.rpos + len - cb.size else cb.rpos + len
    count := cb.count - len }

/-! ### The bytes in order -/

def bytes (cb : CBuffer) : List UInt8 := window cb.buff cb.size cb.rpos cb.count

@[simp] theorem length_bytes (cb : CBuffer) : cb.bytes.length = cb.count := length_window ..

/-- What `cbuffer_assert` checks. -/
structure Valid (cb : CBuffer) : Prop where
  rpos_lt : cb.rpos < cb.size
  count_le : cb.count ≤ cb.size

theorem valid_reset (buff : ℕ → UInt8) {size : ℕ} (h : 0 < size) : (reset buff size).Valid :=
  ⟨h, zero_le _⟩

variable {cb : CBuffer}

theorem Valid.wpos_eq (h : cb.Valid) (hroom : cb.count < cb.size) :
    cb.wpos = (cb.rpos + cb.count) % cb.size := by
  have := h.rpos_lt
  unfold wpos
  split_ifs with hle
  · rw [mod_eq_sub_mod hle, mod_eq_of_lt (by omega)]
  · rw [mod_eq_of_lt (by omega)]

theorem Valid.stretch_le (h : cb.Valid) (hroom : cb.count < cb.size) (len : ℕ) :
    cb.wpos + cb.stretch len ≤ cb.size ∧ cb.count + cb.stretch len ≤ cb.size ∧
      cb.stretch len ≤ len ∧ (0 < len → 0 < cb.stretch len) := by
  have hwpos : cb.wpos < cb.size := by
    rw [h.wpos_eq hroom]
    exact mod_lt _ (by omega)
  simp only [stretch]
  split_ifs <;> omega

theorem Valid.putCells (h : cb.Valid) (hroom : cb.count < cb.size) (data : List UInt8) :
    Valid { cb with
      buff := CS.putCells cb.buff cb.wpos (data.take (cb.stretch data.length))
      count := cb.count + cb.stretch data.length } ∧
    bytes { cb with
      buff := CS.putCells cb.buff cb.wpos (data.take (cb.stretch data.length))
      count := cb.count + cb.stretch data.length } =
        cb.bytes ++ data.take (cb.stretch data.length) := by
  obtain ⟨hend, hcount, hlen, _⟩ := h.stretch_le hroom data.length
  have htake : (data.take (cb.stretch data.length)).length = cb.stretch data.length :=
    length_take_of_le hlen
  refine ⟨⟨h.rpos_lt, hcount⟩, ?_⟩
  -- the stretch does not pass the end, so it is stored in the ring behind the bytes
  simp only [bytes]
  rw [putCells_eq_putRing (h.wpos_eq hroom) (by rw [htake]; exact hend), window_append,
    window_putRing_before (by rw [htake]; exact hcount)]
  congr 1
  have hfit : (data.take (cb.stretch data.length)).length ≤ cb.size := by omega
  have hstored := window_putRing (f := cb.buff) (p := cb.rpos + cb.count) hfit
  rwa [htake] at hstored

theorem Valid.writeLoop (rounds : ℕ) : ∀ {cb : CBuffer} {data : List UInt8}, cb.Valid →
    data.length < rounds → ∃ cb', writeLoop rounds cb data =
      .ok (cb', data.drop (min data.length (cb.size - cb.count))) ∧ cb'.Valid ∧
      cb'.size = cb.size ∧
      cb'.bytes = cb.bytes ++ data.take (min data.length (cb.size - cb.count)) := by
  induction rounds with
  | zero => exact fun _ h => absurd h (by omega)
  | succ rounds ih =>
    intro cb data h hrounds
    by_cases hdone : data = [] ∨ cb.size - cb.count = 0
    · have hzero : min data.length (cb.size - cb.count) = 0 := by
        rcases hdone with rfl | hfull
        · simp
        · omega
      refine ⟨cb, ?_, h, rfl, ?_⟩
      · rw [CBuffer.writeLoop, if_pos hdone, hzero, drop_zero]
      · rw [hzero, take_zero, append_nil]
    · push Not at hdone
      have hroom : cb.count < cb.size := by omega
      have hpos : 0 < data.length := length_pos_iff.mpr hdone.1
      obtain ⟨hend, hcount, hlen, hstretch⟩ := h.stretch_le hroom data.length
      obtain ⟨hvalid, hbytes⟩ := h.putCells hroom data
      set k := cb.stretch data.length with hk
      have hrounds' : (data.drop k).length < rounds := by
        rw [length_drop]
        omega
      obtain ⟨cb', hloop, hvalid', hsize, hbytes'⟩ := ih hvalid hrounds'
      simp only [length_drop] at hloop hbytes'
      -- what was taken now and what is taken later
      have hsum : k + min (data.length - k) (cb.size - (cb.count + k)) =
          min data.length (cb.size - cb.count) := by omega
      refine ⟨cb', ?_, hvalid', hsize, ?_⟩
      · rw [CBuffer.writeLoop, if_neg (by push Not; exact hdone), ← hk]
        rw [if_neg (by omega), hloop, drop_drop, hsum]
      · rw [hbytes', hbytes, append_assoc, ← take_add, hsum]

theorem Valid.write (h : cb.Valid) (data : List UInt8) :
    ∃ cb', cb.write data = .ok (cb', min data.length (cb.size - cb.count)) ∧ cb'.Valid ∧
      cb'.size = cb.size ∧
      cb'.bytes = cb.bytes ++ data.take (min data.length (cb.size - cb.count)) := by
  obtain ⟨cb', hloop, hrest⟩ := Valid.writeLoop (data.length + 1) h (lt_succ_self _)
  refine ⟨cb', ?_, hrest⟩
  unfold CBuffer.write
  rw [hloop, Checked.ok_bind]
  simp only [length_drop, Checked.pure_eq_ok]
  congr 2
  omega

theorem readPeek_eq (h : cb.Valid) :
    cb.readPeek = cb.bytes.take cb.readPeek.length ∧ cb.readPeek.length ≤ cb.count ∧
      (0 < cb.count → 0 < cb.readPeek.length) := by
  have hrpos := h.rpos_lt
  set k := (if cb.size < cb.rpos + cb.count then cb.size - cb.rpos else cb.count) with hk
  have hlen : cb.readPeek.length = k := length_takeCells ..
  have hle : cb.rpos + k ≤ cb.size ∧ k ≤ cb.count ∧ (0 < cb.count → 0 < k) := by
    rw [hk]
    split_ifs <;> omega
  refine ⟨?_, hlen ▸ hle.2.1, hlen ▸ hle.2.2⟩
  have hsplit : cb.bytes = cb.readPeek ++ window cb.buff cb.size (cb.rpos + k) (cb.count - k) := by
    rw [bytes, show cb.count = k + (cb.count - k) by omega, window_append]
    congr 1
    · exact (takeCells_eq_window (mod_eq_of_lt hrpos).symm hle.1).symm
    · congr 1
      omega
  rw [hsplit, take_left]

theorem Valid.readStep (h : cb.Valid) {len : ℕ} (hlen : len ≤ cb.count) :
    (cb.readStep len).Valid ∧ (cb.readStep len).bytes = cb.bytes.drop len := by
  have hrpos := h.rpos_lt
  have hcount := h.count_le
  have hnext : (if cb.size ≤ cb.rpos + len then cb.rpos + len - cb.size else cb.rpos + len) =
      (cb.rpos + len) % cb.size := by
    split_ifs with hle
    · rw [mod_eq_sub_mod hle, mod_eq_of_lt (by omega)]
    · rw [mod_eq_of_lt (by omega)]
  have hstep : cb.readStep len =
      { cb with rpos := (cb.rpos + len) % cb.size, count := cb.count - len } := by
    simp only [CBuffer.readStep, min_eq_left hlen, hnext]
  rw [hstep]
  refine ⟨⟨mod_lt _ (by omega), (sub_le _ _).trans hcount⟩, ?_⟩
  have hsplit : cb.bytes = window cb.buff cb.size cb.rpos len ++
      window cb.buff cb.size (cb.rpos + len) (cb.count - len) := by
    rw [← window_append, bytes, Nat.add_sub_cancel' hlen]
  rw [hsplit, drop_left' (length_window ..)]
  exact window_mod (mod_mod _ _) _ _

end CBuffer

end AndroidEmu.Utils
