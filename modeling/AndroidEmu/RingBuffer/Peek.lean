import AndroidEmu.RingBuffer.Operations

/-!
# Looking into the ring

`ring_buffer_copy_contents` copies the next bytes out of a ring without taking them. For the buffer
inside the ring it counts the bytes up to the end from the write position, so a copy that passes the
end goes on in the memory behind the buffer.
-/

namespace AndroidEmu.RingBuffer

open CS Option

/-- `ring_buffer_copy_contents` with a view. -/
def View.copyContents (v : View) (r : Ring) (wantedBytes : UInt32) :
    Checked (Option (List UInt8)) := do
  let availableAtEnd := v.size - v.getRingPos r.readPos
  if r.availableRead v < wantedBytes then return none
  if wantedBytes > availableAtEnd then
    let remaining := wantedBytes - availableAtEnd
    let front ← v.load r.buf (v.getRingPos r.readPos) availableAtEnd.toNat
    let back ← v.load r.buf (v.getRingPos (r.readPos + availableAtEnd)) remaining.toNat
    return some (front ++ back)
  else
    let bytes ← v.load r.buf (v.getRingPos r.readPos) wantedBytes.toNat
    return some bytes

/-- `ring_buffer_copy_contents`, with or without a view: nothing for -1. -/
def Ring.peek (r : Ring) (v : Option View) (wantedBytes : UInt32) : Checked (Option (List UInt8)) :=
  match v with
  | some v => v.copyContents r wantedBytes
  | none => .ok (r.copyContents wantedBytes)

/-- `ring_buffer_read` and `ring_buffer_view_read` of one step: the ring, the memory at `data` and
the number of steps that were done. -/
def Ring.readStep (r : Ring) (v : View) (data : ℕ → UInt8) (stepSize : UInt32) :
    Checked (Ring × (ℕ → UInt8) × ℕ) := do
  if !r.canRead v stepSize then return (r, data, 0)
  let data ← r.copyOut v data 0 stepSize
  return (r.advanceRead stepSize, data, 1)

/-- It fails if fewer bytes can be read, and else yields the bytes that one step of a read of that
size delivers. -/
def PeeksRight (v : Option View) (r : Ring) (wantedBytes : UInt32) : Prop :=
  if r.canRead (v.getD .internal) wantedBytes then
    ∃ bytes, r.peek v wantedBytes = .ok (some bytes) ∧ bytes.length = wantedBytes.toNat ∧
      ∀ data, r.readStep (v.getD .internal) data wantedBytes =
        .ok (r.advanceRead wantedBytes, putCells data 0 bytes, 1)
  else r.peek v wantedBytes = .ok none

variable {v : View} {r : Ring} {wantedBytes : UInt32}

theorem availableRead_lt_iff :
    r.availableRead v < wantedBytes ↔ r.canRead v wantedBytes = false := by
  rw [Ring.canRead, decide_eq_false_iff_not, UInt32.not_le]
  rfl

theorem toNat_le_of_canRead (h : r.canRead v wantedBytes = true) :
    wantedBytes.toNat ≤ v.size.toNat := by
  rw [Ring.canRead, decide_eq_true_iff, ge_iff_le, UInt32.le_iff_toNat_le, v.toNat_getRingPos] at h
  have := Nat.mod_lt (r.writePos - r.readPos).toNat v.size_pos
  omega

/-- What a read delivers. -/
theorem readStep_of_canRead (h : r.canRead v wantedBytes = true) (data : ℕ → UInt8) :
    r.readStep v data wantedBytes = .ok (r.advanceRead wantedBytes,
      putCells data 0 (window r.buf v.size.toNat r.readPos.toNat wantedBytes.toNat), 1) := by
  have hcopy := Ring.copyOut_eq (UInt32.ofNat_toNat (x := r.readPos)).symm data 0
    (toNat_le_of_canRead h)
  rw [Ring.readStep, h, hcopy]
  rfl

open View

/-- With a view, the copy shows the window from the read position on. -/
theorem View.copyContents_eq (h : r.canRead v wantedBytes = true) : v.copyContents r wantedBytes =
      .ok (some (window r.buf v.size.toNat r.readPos.toNat wantedBytes.toNat)) := by
  have hload := load_split (UInt32.ofNat_toNat (x := r.readPos)).symm r.buf
    (toNat_le_of_canRead h)
  have hnot : ¬ r.availableRead v < wantedBytes := by
    rw [availableRead_lt_iff, h]
    exact Bool.noConfusion
  unfold copyContents
  rw [if_neg hnot]
  split_ifs at hload ⊢ with hsplit
  · obtain ⟨front, back, hfront, hback, -, happend⟩ := hload
    rw [hfront, Checked.ok_bind, hback, ← happend]
    rfl
  · rw [hload]
    rfl

theorem peeksRight_view (v : View) (r : Ring) (wantedBytes : UInt32) :
    PeeksRight (some v) r wantedBytes := by
  unfold PeeksRight
  rw [getD_some]
  split_ifs with h
  · exact ⟨_, copyContents_eq h, length_window _ _ _ _, readStep_of_canRead h⟩
  · have hfew := availableRead_lt_iff.mpr (Bool.eq_false_of_not_eq_true h)
    rw [Ring.peek, View.copyContents]
    rw [if_pos hfew]
    rfl

/-- The bytes that are asked for are all before the end of the buffer inside the ring. -/
def BeforeEnd (readPos wantedBytes : UInt32) : Prop :=
  readPos.toNat % 2048 + wantedBytes.toNat ≤ 2048

theorem length_copyContents {bytes : List UInt8} (h : r.copyContents wantedBytes = some bytes) :
    bytes.length = wantedBytes.toNat := by
  unfold Ring.copyContents at h
  dsimp only at h
  split_ifs at h with _ hsplit
  · obtain rfl := some.inj h
    have hlt : _ < wantedBytes.toNat := UInt32.lt_iff_toNat_lt.mp hsplit
    rw [List.length_append, length_takeCells, length_takeCells,
      UInt32.toNat_sub_of_le _ _ (UInt32.le_iff_toNat_le.mpr hlt.le)]
    omega
  · obtain rfl := some.inj h
    exact length_takeCells _ _ _

theorem peeksRight_of_beforeEnd (h : BeforeEnd r.readPos wantedBytes) :
    PeeksRight none r wantedBytes := by
  unfold PeeksRight
  rw [getD_none]
  split_ifs with hread
  · have havail : wantedBytes ≤ r.availableRead .internal := by
      rwa [← UInt32.not_lt, availableRead_lt_iff, Bool.not_eq_false]
    obtain ⟨bytes, hbytes, htake⟩ :=
      Ring.copyContents_take (UInt32.ofNat_toNat).symm havail le_rfl h
    have hlen := length_copyContents hbytes
    rw [← hlen, List.take_length] at htake
    refine ⟨bytes, by rw [Ring.peek, hbytes], hlen, fun data => ?_⟩
    have hwindow : takeCells r.buf (r.readPos.toNat % 2048) wantedBytes.toNat =
        window r.buf internal.size.toNat r.readPos.toNat wantedBytes.toNat :=
      takeCells_eq_window rfl h
    rw [readStep_of_canRead hread, htake, hlen, hwindow]
  · rw [Ring.peek, Ring.copyContents]
    rw [if_pos (availableRead_lt_iff.mpr (Bool.eq_false_of_not_eq_true hread))]

/-- Memory in which the bytes behind the buffer differ from those in it. -/
def marked : ℕ → UInt8 := fun i => if i < 2048 then 0 else 1

theorem one_mem_takeCells_marked {c n : ℕ} (hc : c ≤ 2048) (hn : 2048 < c + n) :
    1 ∈ takeCells marked c n := by
  refine List.mem_map.mpr ⟨2048 - c, List.mem_range.mpr (by omega), ?_⟩
  rw [Nat.add_sub_cancel' hc]
  rfl

/-- A copy that passes the end is not split there, so it contains the byte behind the buffer. -/
theorem one_mem_copyContents (hread : r.canRead .internal wantedBytes = true)
    (hbuf : r.buf = marked) (hend : ¬ BeforeEnd r.readPos wantedBytes) {bytes : List UInt8}
    (h : r.copyContents wantedBytes = some bytes) : 1 ∈ bytes := by
  have hpos := internal.toNat_getRingPos r.readPos
  have hlt := Nat.mod_lt r.readPos.toNat internal.size_pos
  have hwrite := internal.toNat_availableAtEnd r.writePos.toNat
  have hwlt := Nat.mod_lt r.writePos.toNat internal.size_pos
  have hsize : internal.size.toNat = 2048 := rfl
  -- the bytes that can be read pass the end, so the write position is before the read position
  have havail : wantedBytes.toNat ≤ (r.writePos - r.readPos).toNat % 2048 := by
    rw [Ring.canRead, decide_eq_true_iff, ge_iff_le, UInt32.le_iff_toNat_le,
      internal.toNat_getRingPos] at hread
    exact hread
  rw [UInt32.toNat_sub] at havail
  rw [UInt32.ofNat_toNat] at hwrite
  unfold BeforeEnd at hend
  have hr := r.readPos.toNat_lt
  unfold Ring.copyContents at h
  dsimp only at h
  rw [hbuf, hpos, hsize] at h
  rw [hsize] at hlt hwrite hwlt
  split_ifs at h with _ hsplit
  · obtain rfl := some.inj h
    exact List.mem_append_left _ (one_mem_takeCells_marked (by omega) (by omega))
  · obtain rfl := some.inj h
    exact one_mem_takeCells_marked (by omega) (by omega)

theorem one_not_mem_window_marked (p k : ℕ) : 1 ∉ window marked 2048 p k := by
  intro h
  obtain ⟨i, -, hi⟩ := List.mem_map.mp h
  rw [marked, if_pos (Nat.mod_lt _ (by norm_num))] at hi
  cases hi

/-- For all positions and sizes, whatever the bytes are: with a view, `ring_buffer_copy_contents` is
right; and without one it is, if and only if fewer bytes can be read or those that are asked for do
not pass the end of the buffer. -/
theorem copy_contents_right_iff (writePos readPos wantedBytes : UInt32) :
    (∀ v buf, PeeksRight (some v) ⟨writePos, readPos, buf⟩ wantedBytes) ∧
      ((∀ buf, PeeksRight none ⟨writePos, readPos, buf⟩ wantedBytes) ↔
        (⟨writePos, readPos, fun _ => 0⟩ : Ring).canRead .internal wantedBytes = false ∨
          BeforeEnd readPos wantedBytes) := by
  refine ⟨fun v buf => peeksRight_view v _ _, fun h => ?_, ?_⟩
  · by_contra hcontra
    obtain ⟨hread, hend⟩ := not_or.mp hcontra
    have hread : (⟨writePos, readPos, marked⟩ : Ring).canRead .internal wantedBytes = true :=
      Bool.eq_true_of_not_eq_false hread
    have hmarked := h marked
    unfold PeeksRight at hmarked
    rw [getD_none, if_pos hread] at hmarked
    obtain ⟨bytes, hpeek, hlen, hout⟩ := hmarked
    have hmem := one_mem_copyContents hread rfl hend (Except.ok.inj hpeek)
    have heq := (readStep_of_canRead hread fun _ => 0).symm.trans (hout _)
    have hcells := congrArg (fun p => takeCells p.2.1 0 wantedBytes.toNat) (Except.ok.inj heq)
    have hwindow := takeCells_putCells (fun _ => (0 : UInt8)) 0
      (window marked internal.size.toNat readPos.toNat wantedBytes.toNat)
    have hbytes := takeCells_putCells (fun _ => (0 : UInt8)) 0 bytes
    rw [length_window] at hwindow
    rw [hlen] at hbytes
    rw [hwindow, hbytes] at hcells
    exact one_not_mem_window_marked _ _ (hcells ▸ hmem)
  · rintro (hfew | hend) buf
    · have hfew : (⟨writePos, readPos, buf⟩ : Ring).canRead .internal wantedBytes = false := hfew
      unfold PeeksRight
      rw [getD_none, if_neg (Bool.eq_false_iff.mp hfew), Ring.peek, Ring.copyContents]
      rw [if_pos (availableRead_lt_iff.mpr hfew)]
    · exact peeksRight_of_beforeEnd hend

/-- The ring holds four bytes, two before the end of the buffer and two after it. Three are asked
for, and the third is taken from behind the buffer. -/
theorem copy_passes_end_of_buffer : (⟨2050, 2046, marked⟩ : Ring).copyContents 3 = some [0, 0, 1] ∧
      ¬ PeeksRight none ⟨2050, 2046, marked⟩ 3 := by
  have hpeek : (⟨2050, 2046, marked⟩ : Ring).copyContents 3 = some [0, 0, 1] := by decide
  refine ⟨hpeek, fun h => ?_⟩
  have hread : (⟨2050, 2046, marked⟩ : Ring).canRead .internal 3 = true := by decide
  obtain ⟨bytes, hbytes, -, hout⟩ := h
  cases hbytes
  have heq := Except.ok.inj ((readStep_of_canRead hread fun _ => 0).symm.trans (hout _))
  exact absurd (congrFun (congrArg (·.2.1) heq) 2) (by decide)

end AndroidEmu.RingBuffer
