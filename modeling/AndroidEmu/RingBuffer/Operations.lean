import AndroidEmu.CS.Memory
import AndroidEmu.CS.Ring

/-!
# The ring buffer

`ring_buffer.cpp`. The positions are 32-bit counters that run freely. The buffer is one byte short
of full at most, so that equal positions mean empty. The functions for the buffer inside `struct
ring_buffer` and for that of a `ring_buffer_view` differ in the size and the mask only, so each is
one definition here, over a *view*.
-/

namespace AndroidEmu.RingBuffer

open CS Nat UInt32

/-! ### Views -/

/-- Size and mask of a buffer: `struct ring_buffer_view` without the bytes. -/
structure View where
  size : UInt32
  mask : UInt32
  shift : ℕ
  shift_lt : shift < 32
  size_eq : size.toNat = 2 ^ shift
  mask_eq : mask.toNat = 2 ^ shift - 1

/-- `RING_BUFFER_SIZE` and `RING_BUFFER_MASK`. -/
def View.internal : View where
  size := 2048
  mask := 2047
  shift := 11
  shift_lt := by decide
  size_eq := rfl
  mask_eq := rfl

/-! ### The ring -/

/-- `struct ring_buffer`, with the bytes of the buffer in use. -/
structure Ring where
  writePos : UInt32
  readPos : UInt32
  buf : ℕ → UInt8

/-- The bytes are whatever they were. -/
def Ring.init (buf : ℕ → UInt8) : Ring where
  writePos := 0
  readPos := 0
  buf := buf

/-- `ring_buffer_view_get_ring_pos`. -/
def View.getRingPos (v : View) (index : UInt32) : UInt32 := index &&& v.mask

/-- A `memcpy` into the buffer. -/
def View.store (v : View) (buf : ℕ → UInt8) (pos : UInt32) (bytes : List UInt8) :
    Checked (ℕ → UInt8) :=
  if pos.toNat + bytes.length ≤ v.size.toNat then .ok (putCells buf pos.toNat bytes)
  else .error .outOfBounds

/-- A `memcpy` from the buffer. -/
def View.load (v : View) (buf : ℕ → UInt8) (pos : UInt32) (n : ℕ) : Checked (List UInt8) :=
  if pos.toNat + n ≤ v.size.toNat then .ok (takeCells buf pos.toNat n) else .error .outOfBounds

namespace Ring

variable (v : View) (r : Ring)

/-- `ring_buffer_view_can_write`. -/
def canWrite (bytes : UInt32) : Bool := v.getRingPos (r.readPos - r.writePos - 1) ≥ bytes

/-- `ring_buffer_view_can_read`. -/
def canRead (bytes : UInt32) : Bool := v.getRingPos (r.writePos - r.readPos) ≥ bytes

/-- The copies of one step of `ring_buffer_write`, from `data + offset`. -/
def copyIn (data : ℕ → UInt8) (offset : ℕ) (stepSize : UInt32) : Checked Ring := do
  let availableAtEnd := v.size - v.getRingPos r.writePos
  if stepSize > availableAtEnd then
    let remaining := stepSize - availableAtEnd
    let buf ← v.store r.buf (v.getRingPos r.writePos) (takeCells data offset availableAtEnd.toNat)
    let buf ← v.store buf (v.getRingPos (r.writePos + availableAtEnd))
      (takeCells data (offset + availableAtEnd.toNat) remaining.toNat)
    return { r with buf := buf }
  else
    let buf ← v.store r.buf (v.getRingPos r.writePos) (takeCells data offset stepSize.toNat)
    return { r with buf := buf }

/-- The copies of one step of `ring_buffer_read`, to `data + offset`. -/
def copyOut (data : ℕ → UInt8) (offset : ℕ) (stepSize : UInt32) : Checked (ℕ → UInt8) := do
  let availableAtEnd := v.size - v.getRingPos r.readPos
  if stepSize > availableAtEnd then
    let remaining := stepSize - availableAtEnd
    let front ← v.load r.buf (v.getRingPos r.readPos) availableAtEnd.toNat
    let data := putCells data offset front
    let back ← v.load r.buf (v.getRingPos (r.readPos + availableAtEnd)) remaining.toNat
    return putCells data (offset + availableAtEnd.toNat) back
  else
    let bytes ← v.load r.buf (v.getRingPos r.readPos) stepSize.toNat
    return putCells data offset bytes

/-- `ring_buffer_available_read`. -/
def availableRead : UInt32 := v.getRingPos (r.writePos - r.readPos)

/-- `ring_buffer_copy_contents` for the buffer inside the ring. The bytes up to the end are counted
from the write position, so a copy past the end goes on into the memory behind it. -/
def copyContents (wantedBytes : UInt32) : Option (List UInt8) :=
  let availableAtEnd := View.internal.size - View.internal.getRingPos r.writePos
  if r.availableRead View.internal < wantedBytes then none
  else if wantedBytes > availableAtEnd then
    let remaining := wantedBytes - availableAtEnd
    some (takeCells r.buf (View.internal.getRingPos r.readPos).toNat availableAtEnd.toNat ++
      takeCells r.buf (View.internal.getRingPos (r.readPos + availableAtEnd)).toNat remaining.toNat)
  else some (takeCells r.buf (View.internal.getRingPos r.readPos).toNat wantedBytes.toNat)

/-- The `__atomic_add_fetch` of `write_pos`. -/
def advanceWrite (stepSize : UInt32) : Ring := { r with writePos := r.writePos + stepSize }

/-- The `__atomic_add_fetch` of `read_pos`. -/
def advanceRead (stepSize : UInt32) : Ring := { r with readPos := r.readPos + stepSize }

end Ring

/-! ### Positions -/

section Positions

variable {v : View}

theorem View.size_pos (v : View) : 0 < v.size.toNat := by
  rw [v.size_eq]
  exact Nat.two_pow_pos v.shift

theorem View.size_dvd (v : View) : v.size.toNat ∣ 2 ^ 32 := by
  rw [v.size_eq]
  exact pow_dvd_pow 2 v.shift_lt.le

theorem View.toNat_getRingPos (v : View) (p : UInt32) :
    (v.getRingPos p).toNat = p.toNat % v.size.toNat := by
  rw [getRingPos, UInt32.toNat_and, v.mask_eq, v.size_eq, and_two_pow_sub_one_eq_mod]

theorem View.getRingPos_ofNat (v : View) (n : ℕ) :
    (v.getRingPos (UInt32.ofNat n)).toNat = n % v.size.toNat := by
  rw [v.toNat_getRingPos, UInt32.toNat_ofNat', mod_mod_of_dvd _ v.size_dvd]

theorem View.getRingPos_sub (v : View) {m n : ℕ} (hmn : m ≤ n) (hlt : n - m < v.size.toNat) :
    (v.getRingPos (UInt32.ofNat n - UInt32.ofNat m)).toNat = n - m := by
  rw [← ofNat_sub hmn, v.getRingPos_ofNat, mod_eq_of_lt hlt]

theorem View.getRingPos_room (v : View) {m n : ℕ} (hmn : m ≤ n) (hlt : n - m < v.size.toNat) :
    (v.getRingPos (UInt32.ofNat m - UInt32.ofNat n - 1)).toNat = v.size.toNat - 1 - (n - m) := by
  obtain ⟨turns, hturns⟩ := v.size_dvd
  have hsize : v.size.toNat < 2 ^ 32 := v.size.toNat_lt
  -- the read position one wrap of the counter later is ahead of the write position
  have hwrap : ofNat m = ofNat (m + 2 ^ 32) := by
    apply UInt32.toNat_inj.mp
    rw [UInt32.toNat_ofNat', UInt32.toNat_ofNat', add_mod_right]
  have hsub : ofNat m - ofNat n - 1 = ofNat (m + 2 ^ 32 - n - 1) := by
    rw [hwrap, ofNat_sub (by omega), ofNat_sub (by omega)]
    rfl
  have hsplit : m + 2 ^ 32 - n - 1 = v.size.toNat - 1 - (n - m) + v.size.toNat * (turns - 1) := by
    rw [Nat.mul_sub]
    omega
  rw [hsub, v.getRingPos_ofNat, hsplit, add_mul_mod_self_left, mod_eq_of_lt (by omega)]

theorem View.toNat_availableAtEnd (v : View) (n : ℕ) :
    (v.size - v.getRingPos (UInt32.ofNat n)).toNat = v.size.toNat - n % v.size.toNat := by
  have hlt := mod_lt n v.size_pos
  rw [UInt32.toNat_sub_of_le, v.getRingPos_ofNat]
  rw [le_iff_toNat_le, v.getRingPos_ofNat]
  exact hlt.le

theorem View.getRingPos_add (v : View) (n : ℕ) (k : UInt32) :
    (v.getRingPos (UInt32.ofNat n + k)).toNat = (n + k.toNat) % v.size.toNat := by
  rw [← UInt32.ofNat_toNat (x := k), ← UInt32.ofNat_add, v.getRingPos_ofNat, UInt32.ofNat_toNat]

theorem View.end_mod (v : View) (n : ℕ) {k : ℕ} (hk : k = v.size.toNat - n % v.size.toNat) :
    (n + k) % v.size.toNat = 0 := by
  have hlt := mod_lt n v.size_pos
  have hsum : n + k = v.size.toNat * (n / v.size.toNat) + v.size.toNat := by
    have := div_add_mod n v.size.toNat
    omega
  rw [hsum, add_mod_right, mul_mod_right]

end Positions

/-! ### The copies -/

variable {pos stepSize wantedBytes k : UInt32} {p : ℕ}

section Copies

variable {v : View} {r : Ring}

theorem View.store_eq (hpos : pos.toNat = p % v.size.toNat)
    {bytes : List UInt8} (h : pos.toNat + bytes.length ≤ v.size.toNat) (buf : ℕ → UInt8) :
    v.store buf pos bytes = .ok (putRing v.size.toNat buf p bytes) := by
  rw [store, if_pos h, putCells_eq_putRing hpos h]

theorem View.load_eq {p k : ℕ} (hpos : pos.toNat = p % v.size.toNat)
    (h : pos.toNat + k ≤ v.size.toNat) (buf : ℕ → UInt8) :
    v.load buf pos k = .ok (window buf v.size.toNat p k) := by
  rw [load, if_pos h, takeCells_eq_window hpos h]

open View

theorem toNat_sub_of_gt {n avail : UInt32} (h : n > avail) :
    avail.toNat < n.toNat ∧ (n - avail).toNat = n.toNat - avail.toNat :=
  have hlt := lt_iff_toNat_lt.mp h
  ⟨hlt, UInt32.toNat_sub_of_le _ _ (UInt32.le_iff_toNat_le.mpr hlt.le)⟩

/-- The copies of a write step store the bytes at the write position, whether they are
split or not. -/
theorem Ring.copyIn_eq (hp : r.writePos = UInt32.ofNat p) (data : ℕ → UInt8) (offset : ℕ)
    (hfits : stepSize.toNat ≤ v.size.toNat) : r.copyIn v data offset stepSize =
      .ok { r with
        buf := putRing v.size.toNat r.buf p (takeCells data offset stepSize.toNat) } := by
  have hpos := v.getRingPos_ofNat p
  have hend := v.toNat_availableAtEnd p
  have hlt := mod_lt p v.size_pos
  unfold copyIn
  rw [hp]
  generalize v.size - v.getRingPos (ofNat p) = avail at hend ⊢
  by_cases hsplit : stepSize > avail
  · obtain ⟨hsplit', hrem⟩ := toNat_sub_of_gt hsplit
    have hnext := v.getRingPos_add p avail
    have hzero := v.end_mod p hend
    rw [if_pos hsplit, store_eq hpos (by rw [length_takeCells]; omega), Checked.ok_bind,
      store_eq hnext (by rw [length_takeCells]; omega), Checked.ok_bind, hrem,
      show stepSize.toNat = avail.toNat + (stepSize.toNat - avail.toNat) by omega, takeCells_add,
      putRing_append, length_takeCells, Nat.add_sub_cancel_left]
    rfl
  · have hsplit' : stepSize.toNat ≤ avail.toNat := by exact not_lt.mp hsplit
    rw [if_neg hsplit, store_eq hpos (by rw [length_takeCells]; omega)]
    rfl

theorem View.load_split (hp : pos = UInt32.ofNat p) (buf : ℕ → UInt8)
    (hfits : stepSize.toNat ≤ v.size.toNat) :
    if stepSize > v.size - v.getRingPos pos then
      ∃ front back, v.load buf (v.getRingPos pos) (v.size - v.getRingPos pos).toNat = .ok front ∧
        v.load buf (v.getRingPos (pos + (v.size - v.getRingPos pos)))
          (stepSize - (v.size - v.getRingPos pos)).toNat = .ok back ∧
        front.length = (v.size - v.getRingPos pos).toNat ∧
        front ++ back = window buf v.size.toNat p stepSize.toNat
    else
      v.load buf (v.getRingPos pos) stepSize.toNat =
        .ok (window buf v.size.toNat p stepSize.toNat) := by
  have hpos := v.getRingPos_ofNat p
  have hend := v.toNat_availableAtEnd p
  have hlt := mod_lt p v.size_pos
  rw [hp]
  generalize v.size - v.getRingPos (ofNat p) = avail at hend ⊢
  split_ifs with hsplit
  · obtain ⟨hsplit', hrem⟩ := toNat_sub_of_gt hsplit
    have hnext := v.getRingPos_add p avail
    have hzero := v.end_mod p hend
    refine ⟨_, _, load_eq hpos (by omega) buf, load_eq hnext (by omega) buf, length_window .., ?_⟩
    rw [← window_append, hrem, Nat.add_sub_cancel' hsplit'.le]
  · have hsplit' : stepSize.toNat ≤ avail.toNat := by exact not_lt.mp hsplit
    exact load_eq hpos (by omega) buf

theorem Ring.copyOut_eq (hp : r.readPos = UInt32.ofNat p) (data : ℕ → UInt8) (offset : ℕ)
    (hfits : stepSize.toNat ≤ v.size.toNat) : r.copyOut v data offset stepSize =
      .ok (putCells data offset (window r.buf v.size.toNat p stepSize.toNat)) := by
  have hload := load_split hp r.buf hfits
  unfold copyOut
  dsimp only
  split_ifs at hload ⊢ with hsplit
  · obtain ⟨front, back, hfront, hback, hlen, happend⟩ := hload
    rw [hfront, hback, ← happend, putCells_append, hlen]
    rfl
  · rw [hload]
    rfl

theorem Ring.copyContents_take (hp : r.readPos = UInt32.ofNat p)
    (havail : wantedBytes ≤ r.availableRead View.internal) {k : ℕ} (hk : k ≤ wantedBytes.toNat)
    (hend : p % 2048 + k ≤ 2048) : ∃ bytes, r.copyContents wantedBytes = some bytes ∧
      bytes.take k = takeCells r.buf (p % 2048) k := by
  have hpos : (internal.getRingPos r.readPos).toNat = p % 2048 :=
    hp ▸ internal.getRingPos_ofNat p
  have htake : ∀ {c n : ℕ}, k ≤ n → (takeCells r.buf c n).take k = takeCells r.buf c k := by
    intro c n hkn
    rw [show n = k + (n - k) by omega, takeCells_add, List.take_left' (length_takeCells r.buf c k)]
  have hwrite := internal.toNat_availableAtEnd r.writePos.toNat
  have hnot : ¬ r.availableRead internal < wantedBytes := UInt32.not_lt.mpr havail
  unfold copyContents
  rw [if_neg hnot]
  generalize internal.size - internal.getRingPos r.writePos = avail at hwrite ⊢
  have hsize : internal.size.toNat = 2048 := rfl
  by_cases hsplit : wantedBytes > avail
  · rw [if_pos hsplit]
    refine ⟨_, rfl, ?_⟩
    rw [hpos]
    by_cases hfront : k ≤ avail.toNat
    · rw [List.take_append_of_le_length (by rwa [length_takeCells]), htake hfront]
    -- the write position is behind these bytes, and the second copy continues the first
    have hlt : avail.toNat < wantedBytes.toNat := lt_iff_toNat_lt.mp hsplit
    have hrem : (wantedBytes - avail).toNat = wantedBytes.toNat - avail.toNat :=
      UInt32.toNat_sub_of_le _ _ (UInt32.le_iff_toNat_le.mpr hlt.le)
    have hnext : (internal.getRingPos (r.readPos + avail)).toNat = p % 2048 + avail.toNat := by
      rw [hp, internal.getRingPos_add, hsize, add_mod,
        mod_eq_of_lt (show avail.toNat < 2048 by omega), mod_eq_of_lt (by omega)]
    rw [hnext, ← takeCells_add]
    exact htake (by omega)
  · rw [if_neg hsplit]
    exact ⟨_, rfl, by rw [hpos]; exact htake hk⟩

end Copies

/-! ### Room and content -/

section Room

variable {v : View} {r : Ring} {m n : ℕ}

/-- The positions are those of a run that has read `m` and written `n` bytes. -/
structure Ring.Counts (v : View) (r : Ring) (m n : ℕ) : Prop where
  readPos_eq : r.readPos = UInt32.ofNat m
  writePos_eq : r.writePos = UInt32.ofNat n
  le : m ≤ n
  lt : n - m < v.size.toNat

namespace Ring.Counts

theorem canWrite_iff (h : r.Counts v m n) (bytes : UInt32) :
    r.canWrite v bytes = true ↔ n - m + bytes.toNat < v.size.toNat := by
  have hlt := h.lt
  rw [canWrite, decide_eq_true_iff, ge_iff_le, le_iff_toNat_le, h.readPos_eq,
    h.writePos_eq, v.getRingPos_room h.le h.lt]
  omega

theorem canRead_iff (h : r.Counts v m n) (bytes : UInt32) :
    r.canRead v bytes = true ↔ bytes.toNat ≤ n - m := by
  rw [canRead, decide_eq_true_iff, ge_iff_le, le_iff_toNat_le, h.readPos_eq,
    h.writePos_eq, v.getRingPos_sub h.le h.lt]

theorem advanceWrite (h : r.Counts v m n) (hk : n - m + k.toNat < v.size.toNat) :
    (r.advanceWrite k).Counts v m (n + k.toNat) where
  readPos_eq := h.readPos_eq
  writePos_eq := by
    rw [Ring.advanceWrite, h.writePos_eq, UInt32.ofNat_add, UInt32.ofNat_toNat]
  le := h.le.trans (le_add_right n _)
  lt := by
    omega

theorem advanceRead (h : r.Counts v m n) (hk : k.toNat ≤ n - m) :
    (r.advanceRead k).Counts v (m + k.toNat) n where
  readPos_eq := by
    rw [Ring.advanceRead, h.readPos_eq, UInt32.ofNat_add, UInt32.ofNat_toNat]
  writePos_eq := h.writePos_eq
  le := by
    have := h.le
    omega
  lt := by
    have := h.lt
    omega

end Ring.Counts

end Room

end AndroidEmu.RingBuffer
