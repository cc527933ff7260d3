import AndroidEmu.CS.Ring
import AndroidEmu.RamSnapshot.RamSaver

/-!
# Combining the writes of a batch

The last loop of `RamSaver::writePage` copies the pages of a batch to a buffer and writes it to the
file when the place of a page does not follow the one before, and at the end. No position overflows.
-/

namespace AndroidEmu.RamSnapshot

open CS

/-- A page with a place in the file, and the bytes at `writePtr`. A page that is not smaller when it
is compressed is written as it is. -/
structure PlacedPage where
  filePos : ℕ
  data : List UInt8
  length_le : data.length ≤ kDefaultPageSize

/-- The variables of the loop. `ptr` is `writeCombinePtr` as a place in the buffer. -/
structure WriteCombine where
  file : ℕ → UInt8
  buffer : ℕ → UInt8
  ptr : ℕ
  currStart : ℤ
  currEnd : ℤ
  contigBytes : ℕ

namespace WriteCombine

/-- The `pwrite` of the buffer. One at a negative position fails. -/
def pwrite (c : WriteCombine) : ℕ → UInt8 :=
  if 0 ≤ c.currStart then putCells c.file c.currStart.toNat (takeCells c.buffer 0 c.contigBytes)
  else c.file

/-- The variables before a page is copied. -/
def place (c : WriteCombine) (page : PlacedPage) : WriteCombine :=
  let pos : ℤ := page.filePos
  let sz := page.data.length
  if c.currEnd = -1 then { c with currStart := pos, currEnd := pos + sz, contigBytes := sz }
  else if c.currEnd = pos then
    { c with currEnd := c.currEnd + sz, contigBytes := c.contigBytes + sz }
  else
    { c with file := c.pwrite, ptr := 0, currStart := pos, currEnd := pos + sz, contigBytes := sz }

def step (c : WriteCombine) (page : PlacedPage) : Checked WriteCombine :=
  let c := c.place page
  if c.ptr + page.data.length ≤ kCompressBufferBatchSize * kDefaultPageSize then
    .ok { c with buffer := putCells c.buffer c.ptr page.data, ptr := c.ptr + page.data.length }
  else .error .bufferOverrun

/-- The loop of `RamSaver::writePage`, on what the file and the buffer hold. -/
def run (file buffer : ℕ → UInt8) (batch : List PlacedPage) : Checked (ℕ → UInt8) := do
  let c ← batch.foldlM step ⟨file, buffer, 0, -1, -1, 0⟩
  return c.pwrite

def writeEach (file : ℕ → UInt8) (batch : List PlacedPage) : ℕ → UInt8 :=
  batch.foldl (fun file page => putCells file page.filePos page.data) file

/-- What is in the buffer is still to be written, and gives the file of the pages so far. -/
structure Pending (c : WriteCombine) (file : ℕ → UInt8) : Prop where
  ptr_eq : c.ptr = c.contigBytes
  pwrite_eq : c.pwrite = file
  range : c.currEnd = -1 ∧ c.currStart = -1 ∧ c.contigBytes = 0 ∨
    0 ≤ c.currStart ∧ c.currEnd = c.currStart + c.contigBytes

variable {c : WriteCombine} {file : ℕ → UInt8}

/-- A page that starts a new range. -/
theorem pending_start (file buffer : ℕ → UInt8) (page : PlacedPage) :
    Pending ⟨file, putCells buffer 0 page.data, 0 + page.data.length, page.filePos,
      page.filePos + page.data.length, page.data.length⟩
      (putCells file page.filePos page.data) where
  ptr_eq := Nat.zero_add _
  pwrite_eq := by
    rw [pwrite, if_pos (Int.natCast_nonneg _), takeCells_putCells, Int.toNat_natCast]
  range := .inr ⟨Int.natCast_nonneg _, rfl⟩

theorem Pending.step (h : c.Pending file) (page : PlacedPage)
    (hroom : c.contigBytes + page.data.length ≤ kCompressBufferBatchSize * kDefaultPageSize) :
    ∃ c', c.step page = .ok c' ∧ c'.Pending (putCells file page.filePos page.data) ∧
      c'.contigBytes ≤ c.contigBytes + page.data.length := by
  rw [WriteCombine.step, place]
  obtain ⟨hptr, hpwrite, ⟨hend, hstart, hzero⟩ | ⟨hstart, hend⟩⟩ := h
  · -- the first page
    rw [pwrite, if_neg (by omega)] at hpwrite
    rw [hzero] at hptr
    rw [if_pos hend, ← hpwrite]
    dsimp only
    rw [if_pos (by omega), hptr]
    exact ⟨_, rfl, pending_start _ _ page, by simp⟩
  · rw [if_neg (show c.currEnd ≠ -1 by omega)]
    by_cases hnext : c.currEnd = page.filePos
    · -- the page follows the one before
      rw [if_pos hnext]
      dsimp only
      rw [if_pos (by omega)]
      refine ⟨_, rfl, ⟨by simp [hptr], ?_, .inr ⟨hstart, by push_cast; omega⟩⟩, le_rfl⟩
      rw [pwrite, if_pos hstart] at hpwrite ⊢
      rw [hptr, takeCells_putCells_before, putCells_append, hpwrite, length_takeCells,
        show c.currStart.toNat + c.contigBytes = page.filePos by omega]
    · rw [if_neg hnext, hpwrite]
      dsimp only
      rw [if_pos (by omega)]
      exact ⟨_, rfl, pending_start _ _ page, by simp⟩

theorem Pending.foldlM (batch : List PlacedPage) (h : c.Pending file)
    (hroom : c.contigBytes + batch.length * kDefaultPageSize ≤
      kCompressBufferBatchSize * kDefaultPageSize) :
    ∃ c', batch.foldlM WriteCombine.step c = .ok c' ∧ c'.Pending (writeEach file batch) := by
  induction batch generalizing c file with
  | nil => exact ⟨c, rfl, h⟩
  | cons page batch ih =>
    have hpage := page.length_le
    rw [List.length_cons, Nat.succ_mul] at hroom
    obtain ⟨c', hstep, hpending, hle⟩ := h.step page (by omega)
    obtain ⟨c'', hrest, hdone⟩ := ih hpending (by omega)
    exact ⟨c'', by rw [List.foldlM_cons, hstep]; exact hrest, hdone⟩

/-- The combined writes leave the file as writing each page at its place does, and no copy leaves
the buffer. -/
theorem run_eq_write_each (file buffer : ℕ → UInt8) (batch : List PlacedPage)
    (hbatch : batch.length ≤ kCompressBufferBatchSize) :
    run file buffer batch = .ok (writeEach file batch) := by
  have hstart : Pending ⟨file, buffer, 0, -1, -1, 0⟩ file := ⟨rfl, rfl, .inl ⟨rfl, rfl, rfl⟩⟩
  obtain ⟨c, hloop, hpending⟩ := hstart.foldlM batch (by
    rw [Nat.zero_add]
    exact Nat.mul_le_mul_right _ hbatch)
  rw [run, hloop]
  exact congrArg Except.ok hpending.pwrite_eq

/-- Two pages in a row, one behind a gap, and one that lies before it. -/
def fourPages : List PlacedPage :=
  [⟨8, [1, 2], by decide⟩, ⟨10, [3], by decide⟩, ⟨100, [4], by decide⟩, ⟨20, [5], by decide⟩]

theorem run_eq_write_each_four :
    run (fun _ => 0) (fun _ => 9) fourPages = .ok (writeEach (fun _ => 0) fourPages) ∧
      takeCells (writeEach (fun _ => 0) fourPages) 7 5 = [0, 1, 2, 3, 0] :=
  ⟨run_eq_write_each _ _ _ (by decide), by decide⟩

end WriteCombine

end AndroidEmu.RamSnapshot
