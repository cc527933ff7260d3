import AndroidEmu.CS.PackedNum
import Mathlib.Data.List.TakeWhile

/-!
# The index of a RAM snapshot

`RamSaver::writeIndex` writes a record for each page: the size on disk and, if the page is not zero,
the difference of its position to that of the last page before it, and its hash. Blocks that are
read-only, backed by the user or shared with a file have no records, and writer and reader decide so
from different data. A vector that grows beyond its reserved size leaves iterators behind, which is
a fault.
-/

namespace AndroidEmu.RamSnapshot

open CS Checked List

/-! ### Blocks and pages -/

def kDefaultPageSize : ℕ := 4096

/-- `SnapshotRamBlock`. Its id and its path come from strings that end with a zero byte. -/
structure RamBlock where
  id : Bytes
  totalSize : ℕ
  pageSize : ℕ
  flags : ℕ
  path : Bytes
  readonly : Bool
  id_length : id.length < 256
  id_ne_zero : 0 ∉ id
  flags_lt : flags < 2 ^ 32
  path_length : path.length < 2 ^ 32
  path_ne_zero : 0 ∉ path
  deriving DecidableEq

def mappedShared (flags : ℕ) : Bool := flags.testBit 1

def mapped (flags : ℕ) : Bool := flags.testBit 3

def userBacked (flags : ℕ) : Bool := flags.testBit 4

/-- The blocks whose pages `savePage` does not save. -/
def RamBlock.skipped (async : Bool) (b : RamBlock) : Bool :=
  b.readonly || userBacked b.flags || (mappedShared b.flags && async)

/-- `RamSaver::FileIndex::Block::Page`: what the index has of it. -/
structure IndexPage where
  sizeOnDisk : ℕ
  filePos : ℤ
  hash : Bytes
  hashFilled : Bool
  sizeOnDisk_lt : sizeOnDisk < 2 ^ 31
  length_hash : hash.length = 16
  deriving DecidableEq

/-- `RamSaver::FileIndex::Block`. -/
structure IndexBlock where
  ramBlock : RamBlock
  pages : List IndexPage
  deriving DecidableEq

/-- `RamSaver::FileIndex`, with the flags of the saver. `savePage` adds up `totalPages`, an
`int32_t`. -/
structure SaverIndex where
  compressed : Bool
  async : Bool
  canceled : Bool
  startPosInFile : ℤ
  totalPages : ℕ
  blocks : List IndexBlock
  startPosInFile_lt : startPosInFile < 2 ^ 63
  totalPages_eq : totalPages = (blocks.map fun b => b.pages.length).sum
  totalPages_lt : totalPages < 2 ^ 31

/-! ### Writing -/

/-- The position and the size of the last page before: `prevFilePos` or `runningFilePos`, and
`prevPageSizeOnDisk`. -/
structure Cursor where
  filePos : ℤ := 8
  sizeOnDisk : ℤ := 0

def putPage (ix : SaverIndex) (pageSize : ℕ) (cur : Cursor) (page : IndexPage) :
    Checked (Bytes × Cursor) :=
  let size := putPackedNum (if ix.compressed then page.sizeOnDisk else page.sizeOnDisk / pageSize)
  if page.sizeOnDisk = 0 then .ok (size, cur)
  else do
    let deltaPos := wrapInt64 (page.filePos - cur.filePos)
    if ix.compressed then
      let delta ← putPackedSignedNum (wrapInt64 (deltaPos - cur.sizeOnDisk))
      check (page.hashFilled ∨ ix.canceled)
      return (size ++ delta ++ page.hash, ⟨page.filePos, page.sizeOnDisk⟩)
    else
      check (deltaPos.tmod pageSize = 0)
      let delta ← putPackedSignedNum (deltaPos.tdiv pageSize)
      check (page.hashFilled ∨ ix.canceled)
      return (size ++ delta ++ page.hash, ⟨page.filePos, page.sizeOnDisk⟩)

def putPages (ix : SaverIndex) (pageSize : ℕ) : Cursor → List IndexPage → Checked (Bytes × Cursor)
  | cur, [] => .ok ([], cur)
  | cur, page :: pages => do
    let (bytes, cur) ← putPage ix pageSize cur page
    let (rest, cur) ← putPages ix pageSize cur pages
    return (bytes ++ rest, cur)

/-- `Stream::putString`. -/
def putString (s : Bytes) : Bytes := putBe 4 s.length ++ s

/-- What is written of a block between its id and its records. -/
def blockInfo (ix : SaverIndex) (b : IndexBlock) : Bytes :=
  putBe 4 (wrapNat 32 b.pages.length) ++ putBe 4 (wrapNat 32 b.ramBlock.pageSize) ++
    if ix.async then putBe 4 b.ramBlock.flags ++ putString b.ramBlock.path
    else putBe 4 0 ++ putString []

def putRecords (ix : SaverIndex) (cur : Cursor) (b : IndexBlock) : Checked (Bytes × Cursor) :=
  if b.ramBlock.readonly then .ok ([], cur)
  else if userBacked b.ramBlock.flags then .ok ([], cur)
  else if mappedShared b.ramBlock.flags ∧ ix.async then .ok ([], cur)
  else putPages ix b.ramBlock.pageSize cur b.pages

def putBlocks (ix : SaverIndex) : Cursor → List IndexBlock → Checked Bytes
  | _, [] => .ok []
  | cur, b :: blocks => do
    let (bytes, cur) ← putRecords ix cur b
    let rest ← putBlocks ix cur blocks
    return UInt8.ofNat b.ramBlock.id.length :: b.ramBlock.id ++ blockInfo ix b ++ bytes ++ rest

def SaverIndex.flags (ix : SaverIndex) : ℕ :=
  (if ix.compressed then 1 else 0) + if ix.async then 2 else 0

/-- `RamSaver::writeIndex`. -/
def writeIndex (ix : SaverIndex) : Checked Bytes := do
  let blocks ← putBlocks ix {} ix.blocks
  return putBe 4 2 ++ putBe 4 ix.flags ++ putBe 4 (wrapNat 32 ix.totalPages) ++ blocks

/-! ### Reading -/

/-- `RamLoader::Page`: what the index has of it. -/
structure LoaderPage where
  blockIndex : ℕ
  sizeOnDisk : ℕ
  filePos : ℕ
  hash : Bytes
  deriving DecidableEq

/-- The hash of a new page. -/
def zeroHash : Bytes := List.replicate 16 0

/-- `RamLoader::FileIndex::Block`, with the pages between its iterators. -/
structure LoaderBlock where
  ramBlock : RamBlock
  pages : List LoaderPage := []
  deriving DecidableEq

/-- `RamLoader`: what `readIndex` changes. -/
structure Loader where
  version : ℕ
  compressed : Bool
  capacity : ℕ
  blocks : List LoaderBlock
  pageCount : ℕ := 0
  cursor : Cursor := {}
  hasError : Bool := false
  lazyLoadingFromFileBacking : Bool := false
  loadedFromFileBacking : Bool := false
  loadedToFileBacking : Bool := false

def getPage (version : ℕ) (compressed : Bool) (blockIndex pageSize : ℕ) (cur : Cursor)
    (bs : Bytes) : LoaderPage × Cursor × Bytes :=
  let sizeOnDisk := getPackedNum bs
  if sizeOnDisk.1 = 0 then (⟨blockIndex, 0, 0, zeroHash⟩, cur, sizeOnDisk.2)
  else
    let posDelta := getPackedSignedNum sizeOnDisk.2
    let hash := if version = 2 then posDelta.2.take 16 else zeroHash
    let rest := if version = 2 then posDelta.2.drop 16 else posDelta.2
    if compressed then
      let size := wrapNat 32 sizeOnDisk.1
      let pos := wrapInt64 (cur.filePos + wrapInt64 (posDelta.1 + cur.sizeOnDisk))
      (⟨blockIndex, size, toUInt64 pos, hash⟩, ⟨pos, wrapInt size⟩, rest)
    else
      let size := wrapNat 32 (wrapNat 32 sizeOnDisk.1 * pageSize)
      let pos := wrapInt64 (cur.filePos + wrapInt64 (posDelta.1 * pageSize))
      (⟨blockIndex, size, toUInt64 pos, hash⟩, ⟨pos, cur.sizeOnDisk⟩, rest)

def getPages (version : ℕ) (compressed : Bool) (blockIndex pageSize : ℕ) :
    ℕ → Cursor → Bytes → List LoaderPage × Cursor × Bytes
  | 0, cur, bs => ([], cur, bs)
  | n + 1, cur, bs =>
    let page := getPage version compressed blockIndex pageSize cur bs
    let rest := getPages version compressed blockIndex pageSize n page.2.1 page.2.2
    (page.1 :: rest.1, rest.2)

/-- `Stream::getString`. -/
def getString (bs : Bytes) : Bytes × Bytes :=
  let len := getBe 4 bs
  (len.2.take len.1, len.2.drop len.1)

/-- The end of `readBlockPages`: the pages of a block that is loaded from its records. -/
def loadPages (l : Loader) (blockIndex : ℕ) (b : RamBlock) (count : ℕ) (bs : Bytes) :
    Checked (Loader × Bytes) :=
  if l.capacity < l.pageCount + count then .error .useAfterFree
  else
    let pages :=
      getPages l.version l.compressed (wrapNat 16 blockIndex) b.pageSize count l.cursor bs
    .ok ({ l with
      blocks := l.blocks.set blockIndex ⟨b, pages.1⟩
      pageCount := l.pageCount + count
      cursor := pages.2.1 }, pages.2.2)

/-- `readBlockPages`, for the block at an index. Some files can be opened. -/
def readBlockPages (opens : Bytes → Bool) (l : Loader) (blockIndex : ℕ) (b : RamBlock)
    (bs : Bytes) : Checked (Loader × Bytes) :=
  let blockPagesCount := getBe 4 bs
  let blockPageSizeFromSave := getBe 4 blockPagesCount.2
  let savedFlags := getBe 4 blockPageSizeFromSave.2
  let savedMemPath := getString savedFlags.2
  let rest := savedMemPath.2
  if b.readonly then .ok (l, rest)
  else if userBacked savedFlags.1 then .ok (l, rest)
  else if mappedShared savedFlags.1 then
    if mapped b.flags ∧ savedMemPath.1 = b.path then
      .ok ({ l with lazyLoadingFromFileBacking := true }, rest)
    else if opens savedMemPath.1 then .ok ({ l with loadedFromFileBacking := true }, rest)
    else .ok ({ l with hasError := true }, rest)
  else if mapped b.flags then
    loadPages { l with loadedToFileBacking := true } blockIndex
      { b with pageSize := blockPageSizeFromSave.1 } blockPagesCount.1 rest
  else loadPages l blockIndex b blockPagesCount.1 rest

/-- The loop of `readIndex`. The name is a string that ends with a zero byte. -/
def readBlocks (opens : Bytes → Bool) : ℕ → Loader → Bytes → Checked (Option (Loader × Bytes))
  | 0, l, bs => .ok (some (l, bs))
  | n + 1, l, bs =>
    let nameLength := getByte bs
    let name := (nameLength.2.take nameLength.1).takeWhile (· ≠ 0)
    match l.blocks.findIdx? fun b => b.ramBlock.id = name with
    | none => .ok none
    | some blockIndex => do
      let block ← readAt l.blocks blockIndex
      let (l, bs) ← readBlockPages opens l blockIndex block.ramBlock
        (nameLength.2.drop nameLength.1)
      readBlocks opens n l bs

/-- `readIndex`, up to the gap table, with the blocks that are registered. -/
def readIndex (opens : Bytes → Bool) (blocks : List RamBlock) (bs : Bytes) :
    Checked (Option (Loader × Bytes)) :=
  let version := getBe 4 bs
  if version.1 < 1 ∨ 2 < version.1 then .ok none
  else
    let flags := getBe 4 version.2
    let pageCount := getBe 4 flags.2
    readBlocks opens blocks.length
      { version := version.1
        compressed := flags.1.testBit 0
        capacity := pageCount.1
        blocks := blocks.map fun b => { ramBlock := b } } pageCount.2

/-! ### Pages -/

/-- Where a page that is not zero may lie: before the index, and in an uncompressed file a number
of pages behind the first one. -/
structure IndexPage.Placed (ix : SaverIndex) (page : IndexPage) : Prop where
  nonneg : 0 ≤ page.filePos
  le : page.filePos + page.sizeOnDisk ≤ ix.startPosInFile
  hash : page.hashFilled ∨ ix.canceled
  dvd : ix.compressed = false → kDefaultPageSize ∣ page.sizeOnDisk
  mod : ix.compressed = false → page.filePos % kDefaultPageSize = 8

def IndexPage.loaded (blockIndex : ℕ) (page : IndexPage) : LoaderPage :=
  if page.sizeOnDisk = 0 then ⟨blockIndex, 0, 0, zeroHash⟩
  else ⟨blockIndex, page.sizeOnDisk, page.filePos.toNat, page.hash⟩

/-- The cursors of the writer and the reader between two records. Only a reader of compressed
pages keeps the size. -/
structure SaverIndex.Between (ix : SaverIndex) (w r : Cursor) : Prop where
  filePos : r.filePos = w.filePos
  sizeOnDisk : ix.compressed → r.sizeOnDisk = w.sizeOnDisk
  nonneg : 0 ≤ w.filePos
  size_nonneg : 0 ≤ w.sizeOnDisk
  lt : w.filePos + w.sizeOnDisk < 2 ^ 63
  mod : ix.compressed = false → w.filePos % kDefaultPageSize = 8

variable {ix : SaverIndex} {page : IndexPage} {w r : Cursor}

theorem SaverIndex.between_start (ix : SaverIndex) : ix.Between {} {} :=
  ⟨rfl, fun _ => rfl, by decide, by decide, by decide, fun _ => by decide⟩

theorem toUInt64_of_nonneg {n : ℤ} (hlo : 0 ≤ n) (hhi : n < 2 ^ 63) : toUInt64 n = n.toNat := by
  rw [toUInt64, Int.emod_eq_of_lt hlo (by omega)]

theorem IndexPage.Placed.between (hplaced : page.Placed ix) {s : ℤ}
    (hs : ix.compressed → s = page.sizeOnDisk) :
    ix.Between ⟨page.filePos, page.sizeOnDisk⟩ ⟨page.filePos, s⟩ where
  filePos := rfl
  sizeOnDisk := hs
  nonneg := hplaced.nonneg
  size_nonneg := by positivity
  lt := by
    have := hplaced.le
    have := ix.startPosInFile_lt
    dsimp only
    omega
  mod := hplaced.mod

open IndexPage

theorem getPage_putPage (hcur : ix.Between w r)
    (hpage : page.sizeOnDisk ≠ 0 → page.Placed ix) (i : ℕ) :
    ∃ bytes w' r', putPage ix kDefaultPageSize w page = .ok (bytes, w') ∧ ix.Between w' r' ∧
      ∀ rest, getPage 2 ix.compressed i kDefaultPageSize r (bytes ++ rest) =
        (page.loaded i, r', rest) := by
  have hsize := page.sizeOnDisk_lt
  by_cases hzero : page.sizeOnDisk = 0
  · refine ⟨putPackedNum 0, w, r, ?_, hcur, fun rest => ?_⟩
    · simp [putPage, hzero]
    · simp only [getPage, getPackedNum_putPackedNum (show 0 < 2 ^ 64 by norm_num), if_pos,
        loaded, if_pos hzero]
  have hplaced := hpage hzero
  have hnonneg := hplaced.nonneg
  have hle := hplaced.le
  have hstart := ix.startPosInFile_lt
  have hw := hcur.nonneg
  have hws := hcur.size_nonneg
  have hlt := hcur.lt
  have hdelta : wrapInt64 (page.filePos - w.filePos) = page.filePos - w.filePos :=
    wrapInt64_of_bounds (by omega) (by omega)
  have htake : ∀ rest, (page.hash ++ rest).take 16 = page.hash := fun rest =>
    take_left' page.length_hash
  have hdrop : ∀ rest, (page.hash ++ rest).drop 16 = rest := fun rest =>
    drop_left' page.length_hash
  cases hc : ix.compressed with
  | true =>
    have hbounds : wrapInt64 (page.filePos - w.filePos - w.sizeOnDisk) =
        page.filePos - w.filePos - w.sizeOnDisk := wrapInt64_of_bounds (by omega) (by omega)
    obtain ⟨delta, hput, hget⟩ := putPackedSignedNum_spec
      (show -2 ^ 63 < page.filePos - w.filePos - w.sizeOnDisk by omega) (by omega)
    refine ⟨putPackedNum page.sizeOnDisk ++ delta ++ page.hash, ⟨page.filePos, page.sizeOnDisk⟩,
      ⟨page.filePos, page.sizeOnDisk⟩, ?_, hplaced.between fun _ => rfl, fun rest => ?_⟩
    · simp only [putPage, hc, if_true, if_neg hzero, hdelta, hbounds, hput, ok_bind,
        check_of hplaced.hash, pure_eq_ok]
    · simp only [append_assoc, getPage,
        getPackedNum_putPackedNum (show page.sizeOnDisk < 2 ^ 64 by omega), hget, htake, hdrop,
        if_neg hzero, if_true, wrapNat_of_lt (show page.sizeOnDisk < 2 ^ 32 by omega),
        hcur.filePos, hcur.sizeOnDisk hc]
      rw [wrapInt64_add_wrapInt64, show w.filePos + (page.filePos - w.filePos - w.sizeOnDisk +
        w.sizeOnDisk) = page.filePos by ring, wrapInt64_of_bounds (by omega) (by omega),
        wrapInt_of_bounds (by omega) (by omega), toUInt64_of_nonneg hnonneg (by omega),
        loaded, if_neg hzero]
  | false =>
    obtain ⟨m, hm⟩ := hplaced.dvd hc
    obtain ⟨k, hk⟩ : (kDefaultPageSize : ℤ) ∣ page.filePos - w.filePos :=
      Int.ModEq.dvd ((hcur.mod hc).trans (hplaced.mod hc).symm)
    have hpos : (0 : ℤ) < kDefaultPageSize := by decide
    have hm' : page.sizeOnDisk = 4096 * m := hm
    have hk' : page.filePos - w.filePos = 4096 * k := hk
    have hdiv : page.sizeOnDisk / kDefaultPageSize = m := by
      rw [hm]
      exact Nat.mul_div_cancel_left m (by decide)
    obtain ⟨delta, hput, hget⟩ := putPackedSignedNum_spec (show -2 ^ 63 < k by omega) (by omega)
    refine ⟨putPackedNum m ++ delta ++ page.hash, ⟨page.filePos, page.sizeOnDisk⟩,
      ⟨page.filePos, r.sizeOnDisk⟩, ?_, hplaced.between (by simp [hc]), fun rest => ?_⟩
    · simp only [putPage, hc, Bool.false_eq_true, if_false, if_neg hzero, hdelta, hdiv]
      rw [hk, check_of (Int.mul_tmod_right _ k), Int.mul_tdiv_cancel_left k hpos.ne']
      simp only [hput, ok_bind, check_of hplaced.hash, pure_eq_ok]
    · simp only [append_assoc, getPage, getPackedNum_putPackedNum (show m < 2 ^ 64 by omega),
        hget, htake, hdrop, if_neg (show m ≠ 0 by omega), if_true, Bool.false_eq_true, if_false,
        wrapNat_of_lt (show m < 2 ^ 32 by omega), hcur.filePos]
      rw [wrapInt64_add_wrapInt64, mul_comm k, ← hk, Nat.mul_comm m, ← hm, add_sub_cancel,
        wrapInt64_of_bounds (by omega) (by omega), wrapNat_of_lt (by omega),
        toUInt64_of_nonneg hnonneg (by omega), loaded, if_neg hzero]

theorem getPages_putPages {pages : List IndexPage} (hcur : ix.Between w r)
    (hpages : ∀ page ∈ pages, page.sizeOnDisk ≠ 0 → page.Placed ix) (i : ℕ) :
    ∃ bytes w' r', putPages ix kDefaultPageSize w pages = .ok (bytes, w') ∧ ix.Between w' r' ∧
      ∀ rest, getPages 2 ix.compressed i kDefaultPageSize pages.length r (bytes ++ rest) =
        (pages.map (IndexPage.loaded i), r', rest) := by
  induction pages generalizing w r with
  | nil => exact ⟨[], w, r, rfl, hcur, fun rest => rfl⟩
  | cons page pages ih =>
    obtain ⟨hpage, hpages⟩ := forall_mem_cons.mp hpages
    obtain ⟨bytes, w1, r1, hput, hcur1, hget⟩ := getPage_putPage hcur hpage i
    obtain ⟨bytes', w2, r2, hput', hcur2, hget'⟩ := ih hcur1 hpages
    refine ⟨bytes ++ bytes', w2, r2, ?_, hcur2, fun rest => ?_⟩
    · simp only [putPages, hput, hput', ok_bind, pure_eq_ok]
    · simp only [length_cons, getPages, append_assoc, hget, hget', map_cons]

/-! ### Blocks -/

def savedPages (saved : List IndexBlock) (id : Bytes) : List IndexPage :=
  ((saved.find? fun b => b.ramBlock.id = id).map (·.pages)).getD []

/-- The blocks of a loader that has loaded some of the saved blocks. -/
def loadedBlocks (blocks : List RamBlock) (saved : List IndexBlock) : List LoaderBlock :=
  blocks.mapIdx fun i b => ⟨b, (savedPages saved b.id).map (IndexPage.loaded (wrapNat 16 i))⟩

variable {blocks : List RamBlock} {saved : List IndexBlock} {b : IndexBlock} {i : ℕ}

theorem savedPages_append_self (hb : b.ramBlock.id ∉ saved.map (·.ramBlock.id)) :
    savedPages (saved ++ [b]) b.ramBlock.id = b.pages := by
  have hnone : saved.find? (fun b' => b'.ramBlock.id = b.ramBlock.id) = none := by
    rw [find?_eq_none]
    intro b' hb' heq
    exact hb (List.mem_map.mpr ⟨b', hb', by simpa using heq⟩)
  simp [savedPages, find?_append, hnone]

theorem savedPages_append_of_ne {id : Bytes} (hid : b.ramBlock.id ≠ id) :
    savedPages (saved ++ [b]) id = savedPages saved id := by
  simp [savedPages, find?_append, hid]

theorem savedPages_append_nil (hnil : b.pages = []) :
    savedPages (saved ++ [b]) = savedPages saved := by
  funext id
  by_cases hid : b.ramBlock.id = id
  · cases hfind : saved.find? fun b => b.ramBlock.id = id <;>
      simp [savedPages, find?_append, hfind, hid, hnil]
  · exact savedPages_append_of_ne hid

theorem loadedBlocks_append (hids : (blocks.map (·.id)).Nodup) (hi : blocks[i]? = some b.ramBlock)
    (hb : b.ramBlock.id ∉ saved.map (·.ramBlock.id)) :
    loadedBlocks blocks (saved ++ [b]) = (loadedBlocks blocks saved).set i
      ⟨b.ramBlock, b.pages.map (IndexPage.loaded (wrapNat 16 i))⟩ := by
  obtain ⟨hlt, heq⟩ := List.getElem?_eq_some_iff.mp hi
  refine ext_getElem (by simp [loadedBlocks]) fun j hj hj' => ?_
  have hj : j < blocks.length := by simpa [loadedBlocks] using hj
  by_cases hij : i = j
  · subst hij
    simp [loadedBlocks, heq, savedPages_append_self hb]
  have hne : b.ramBlock.id ≠ blocks[j].id := by
    intro hid
    rw [← heq] at hid
    exact hij ((@Nodup.getElem_inj_iff _ _ hids i (by simpa) j (by simpa)).mp
      (by simpa using hid))
  simp [loadedBlocks, getElem_set_ne hij, savedPages_append_of_ne hne]

/-- What a block of an index has to meet: its pages are saved if `savePage` does not skip it, and
lie in the file. -/
structure IndexBlock.Valid (ix : SaverIndex) (b : IndexBlock) : Prop where
  pageSize : b.ramBlock.pageSize = kDefaultPageSize
  skipped : b.ramBlock.skipped ix.async → b.pages = []
  placed : ∀ page ∈ b.pages, page.sizeOnDisk ≠ 0 → page.Placed ix

/-- A loader that has read some of the saved blocks. -/
structure Loader.HasRead (ix : SaverIndex) (blocks : List RamBlock) (saved : List IndexBlock)
    (w : Cursor) (l : Loader) : Prop where
  version : l.version = 2
  compressed : l.compressed = ix.compressed
  capacity : l.capacity = ix.totalPages
  blocks : l.blocks = loadedBlocks blocks saved
  pageCount : l.pageCount = (saved.map fun b => b.pages.length).sum
  cursor : ix.Between w l.cursor

variable {l : Loader}

section

variable (hl : l.HasRead ix blocks saved w)

include hl

theorem Loader.HasRead.flags
    (hasError lazyLoading fromBacking toBacking : Bool) : ({ l with
      hasError := hasError
      lazyLoadingFromFileBacking := lazyLoading
      loadedFromFileBacking := fromBacking
      loadedToFileBacking := toBacking } : Loader).HasRead ix blocks saved w :=
  { hl with }

theorem Loader.HasRead.skip (hnil : b.pages = []) :
    l.HasRead ix blocks (saved ++ [b]) w :=
  { hl with
    blocks := by rw [hl.blocks, loadedBlocks, loadedBlocks, savedPages_append_nil hnil]
    pageCount := by simp [hl.pageCount, hnil] }

theorem Loader.HasRead.loadPages
    (hids : (blocks.map (·.id)).Nodup) (hi : blocks[i]? = some b.ramBlock) (hvalid : b.Valid ix)
    (hb : b.ramBlock.id ∉ saved.map (·.ramBlock.id))
    (hle : (saved.map fun b => b.pages.length).sum + b.pages.length ≤ ix.totalPages) :
    ∃ bytes w' l', putPages ix b.ramBlock.pageSize w b.pages = .ok (bytes, w') ∧
      l'.HasRead ix blocks (saved ++ [b]) w' ∧
      ∀ rest, loadPages l i b.ramBlock b.pages.length (bytes ++ rest) = .ok (l', rest) := by
  obtain ⟨bytes, w', r', hput, hcur, hget⟩ :=
    getPages_putPages hl.cursor hvalid.placed (wrapNat 16 i)
  refine ⟨bytes, w', { l with
      blocks := l.blocks.set i ⟨b.ramBlock, b.pages.map (loaded (wrapNat 16 i))⟩
      pageCount := l.pageCount + b.pages.length
      cursor := r' }, by rw [hvalid.pageSize, hput], ?_, fun rest => ?_⟩
  · exact { hl with
      blocks := by rw [hl.blocks, loadedBlocks_append hids hi hb]
      pageCount := by simp [hl.pageCount]
      cursor := hcur }
  · have hroom : ¬ l.capacity < l.pageCount + b.pages.length := by
      rw [hl.capacity, hl.pageCount]
      omega
    simp only [RamSnapshot.loadPages, if_neg hroom, hl.version, hl.compressed, hvalid.pageSize,
      hget]

end

theorem getString_putString {s : Bytes} (hs : s.length < 2 ^ 32) (rest : Bytes) :
    getString (putString s ++ rest) = (s, rest) := by
  rw [getString, putString, append_assoc, getBe_putBe 4 (lt_pow_bytes hs)]
  simp

theorem readBlockPages_blockInfo (opens : Bytes → Bool) (hvalid : b.Valid ix)
    (hlt : b.pages.length < 2 ^ 32) (rest : Bytes) :
    readBlockPages opens l i b.ramBlock (blockInfo ix b ++ rest) =
      let flags := if ix.async then b.ramBlock.flags else 0
      if b.ramBlock.readonly then .ok (l, rest)
      else if userBacked flags then .ok (l, rest)
      else if mappedShared flags then
        if mapped b.ramBlock.flags then .ok ({ l with lazyLoadingFromFileBacking := true }, rest)
        else if opens b.ramBlock.path then .ok ({ l with loadedFromFileBacking := true }, rest)
        else .ok ({ l with hasError := true }, rest)
      else if mapped b.ramBlock.flags then
        loadPages { l with loadedToFileBacking := true } i b.ramBlock b.pages.length rest
      else loadPages l i b.ramBlock b.pages.length rest := by
  have hcount : wrapNat 32 b.pages.length = b.pages.length := wrapNat_of_lt hlt
  have hpageSize : wrapNat 32 b.ramBlock.pageSize = b.ramBlock.pageSize := by
    rw [hvalid.pageSize]
    rfl
  have hsize : b.ramBlock.pageSize < 256 ^ 4 := by
    rw [hvalid.pageSize]
    decide
  cases hasync : ix.async with
  | true =>
    simp only [readBlockPages, blockInfo, hasync, if_true, append_assoc, hcount, hpageSize,
      getBe_putBe 4 (lt_pow_bytes hlt), getBe_putBe 4 hsize,
      getBe_putBe 4 (lt_pow_bytes b.ramBlock.flags_lt),
      getString_putString b.ramBlock.path_length, and_true]
  | false =>
    simp only [readBlockPages, blockInfo, hasync, Bool.false_eq_true, if_false, append_assoc,
      hcount, hpageSize, getBe_putBe 4 (lt_pow_bytes hlt), getBe_putBe 4 hsize,
      getBe_putBe 4 (show 0 < 256 ^ 4 by norm_num),
      getString_putString (show ([] : Bytes).length < 2 ^ 32 by norm_num),
      show mappedShared 0 = false by decide]

theorem IndexBlock.Valid.putRecords_eq (hvalid : b.Valid ix) (w : Cursor) :
    putRecords ix w b = putPages ix b.ramBlock.pageSize w b.pages := by
  have hskip : b.ramBlock.skipped ix.async →
      .ok ([], w) = putPages ix b.ramBlock.pageSize w b.pages := fun h => by
    rw [hvalid.skipped h]
    rfl
  rw [putRecords]
  split_ifs with hreadonly huser hshared
  · exact hskip (by simp [RamBlock.skipped, hreadonly])
  · exact hskip (by simp [RamBlock.skipped, huser])
  · exact hskip (by simp [RamBlock.skipped, hshared])
  · rfl

/-- Behind its id a block is written and read back. -/
def Loader.ReadsBack (opens : Bytes → Bool) (ix : SaverIndex) (blocks : List RamBlock)
    (saved : List IndexBlock) (w : Cursor) (i : ℕ) (b : IndexBlock) (l : Loader) : Prop :=
  ∃ bytes w' l', putRecords ix w b = .ok (bytes, w') ∧ l'.HasRead ix blocks (saved ++ [b]) w' ∧
    ∀ rest, readBlockPages opens l i b.ramBlock (blockInfo ix b ++ bytes ++ rest) = .ok (l', rest)

theorem Loader.HasRead.readsBack (opens : Bytes → Bool) (hl : l.HasRead ix blocks saved w)
    (hids : (blocks.map (·.id)).Nodup) (hi : blocks[i]? = some b.ramBlock) (hvalid : b.Valid ix)
    (hb : b.ramBlock.id ∉ saved.map (·.ramBlock.id))
    (hle : (saved.map fun b => b.pages.length).sum + b.pages.length ≤ ix.totalPages) :
    l.ReadsBack opens ix blocks saved w i b := by
  have hlt : b.pages.length < 2 ^ 32 := by
    have := ix.totalPages_lt
    omega
  have hinfo := fun bytes rest : Bytes => (congrArg (readBlockPages opens l i b.ramBlock)
    (append_assoc (blockInfo ix b) bytes rest)).trans
      (readBlockPages_blockInfo opens hvalid hlt (bytes ++ rest))
  dsimp only at hinfo
  -- where the reader returns before the records, there are none
  have hskip : ∀ l' : Loader, l'.HasRead ix blocks saved w → b.ramBlock.skipped ix.async →
      (∀ rest, readBlockPages opens l i b.ramBlock (blockInfo ix b ++ [] ++ rest) =
        .ok (l', rest)) → l.ReadsBack opens ix blocks saved w i b := fun l' hl' hskipped hread => by
    have hnil := hvalid.skipped hskipped
    exact ⟨[], w, l', by rw [hvalid.putRecords_eq, hnil, putPages], hl'.skip hnil, hread⟩
  have huser : userBacked (if ix.async then b.ramBlock.flags else 0) →
      b.ramBlock.skipped ix.async := by
    cases ix.async with
    | true => exact fun h => by simp [RamBlock.skipped, show userBacked b.ramBlock.flags from h]
    | false => exact fun h => by simp [userBacked] at h
  have hshared : mappedShared (if ix.async then b.ramBlock.flags else 0) →
      b.ramBlock.skipped ix.async := by
    cases ix.async with
    | true => exact fun h => by simp [RamBlock.skipped, show mappedShared b.ramBlock.flags from h]
    | false => exact fun h => by simp [mappedShared] at h
  generalize (if ix.async then b.ramBlock.flags else 0) = flags at huser hshared hinfo
  split_ifs at hinfo with hro hu hs hm ho hm
  · exact hskip l hl (by simp [RamBlock.skipped, hro]) (hinfo [])
  · exact hskip l hl (huser hu) (hinfo [])
  · exact hskip _ (hl.flags _ true _ _) (hshared hs) (hinfo [])
  · exact hskip _ (hl.flags _ _ true _) (hshared hs) (hinfo [])
  · exact hskip _ (hl.flags true _ _ _) (hshared hs) (hinfo [])
  · obtain ⟨bytes, w', l', hput, hread, hload⟩ :=
      (hl.flags _ _ _ true).loadPages hids hi hvalid hb hle
    exact ⟨bytes, w', l', by rw [hvalid.putRecords_eq, hput], hread, fun rest =>
      (hinfo bytes rest).trans (hload rest)⟩
  · obtain ⟨bytes, w', l', hput, hread, hload⟩ := hl.loadPages hids hi hvalid hb hle
    exact ⟨bytes, w', l', by rw [hvalid.putRecords_eq, hput], hread, fun rest =>
      (hinfo bytes rest).trans (hload rest)⟩

/-! ### The index -/

theorem findIdx?_loadedBlocks (saved : List IndexBlock) (hids : (blocks.map (·.id)).Nodup)
    (hi : blocks[i]? = some b.ramBlock) :
    (loadedBlocks blocks saved).findIdx? (fun b' => b'.ramBlock.id = b.ramBlock.id) = some i := by
  obtain ⟨hlt, heq⟩ := List.getElem?_eq_some_iff.mp hi
  rw [findIdx?_eq_some_iff_getElem]
  refine ⟨by simpa [loadedBlocks], by simp [loadedBlocks, heq], fun j hji => ?_⟩
  have hne : blocks[j].id ≠ blocks[i].id := by
    intro hid
    exact hji.ne ((@Nodup.getElem_inj_iff _ _ hids j (by simp; omega) i (by simpa)).mp
      (by simpa using hid))
  simpa [loadedBlocks, heq] using hne

theorem getName (b : RamBlock) (rest : Bytes) :
    let nameLength := getByte (UInt8.ofNat b.id.length :: b.id ++ rest)
    (nameLength.2.take nameLength.1).takeWhile (· ≠ 0) = b.id ∧
      nameLength.2.drop nameLength.1 = rest := by
  have hlength : (UInt8.ofNat b.id.length).toNat = b.id.length := by
    exact Nat.mod_eq_of_lt b.id_length
  have hid : b.id.takeWhile (· ≠ 0) = b.id := by
    refine takeWhile_eq_self_iff.mpr fun x hx => ?_
    exact decide_eq_true fun h : x = 0 => b.id_ne_zero (h ▸ hx)
  simp only [cons_append, getByte, hlength, take_left', drop_left', hid, and_self]

theorem Loader.HasRead.readBlocks_succ {opens : Bytes → Bool} {l' : Loader} {bytes rest : Bytes}
    (hl : l.HasRead ix blocks saved w) (hids : (blocks.map (·.id)).Nodup)
    (hi : blocks[i]? = some b.ramBlock)
    (hread : readBlockPages opens l i b.ramBlock bytes = .ok (l', rest)) (n : ℕ) :
    readBlocks opens (n + 1) l (UInt8.ofNat b.ramBlock.id.length :: b.ramBlock.id ++ bytes) =
      readBlocks opens n l' rest := by
  obtain ⟨hname, hrest⟩ := getName b.ramBlock bytes
  have hfind := findIdx?_loadedBlocks saved hids hi
  have hat : readAt l.blocks i = .ok ⟨b.ramBlock,
      (savedPages saved b.ramBlock.id).map (loaded (wrapNat 16 i))⟩ := by
    refine readAt_of_getElem? ?_
    simp [hl.blocks, loadedBlocks, hi]
  rw [← hl.blocks] at hfind
  simp only [readBlocks, hname, hrest, hfind, hat, ok_bind, hread]

theorem readBlocks_putBlocks (opens : Bytes → Bool) (hids : (blocks.map (·.id)).Nodup)
    (todo : List IndexBlock) (hl : l.HasRead ix blocks saved w)
    (hmem : ∀ b ∈ todo, b.ramBlock ∈ blocks) (hvalid : ∀ b ∈ todo, b.Valid ix)
    (hnodup : ((saved ++ todo).map (·.ramBlock.id)).Nodup)
    (hsum : ((saved ++ todo).map fun b => b.pages.length).sum ≤ ix.totalPages) :
    ∃ bytes l' w', putBlocks ix w todo = .ok bytes ∧ l'.HasRead ix blocks (saved ++ todo) w' ∧
      ∀ rest, readBlocks opens todo.length l (bytes ++ rest) = .ok (some (l', rest)) := by
  induction todo generalizing saved w l with
  | nil => exact ⟨[], l, w, rfl, by simpa using hl, fun rest => rfl⟩
  | cons b todo ih =>
    obtain ⟨hb, hmem⟩ := forall_mem_cons.mp hmem
    obtain ⟨hvalidb, hvalid⟩ := forall_mem_cons.mp hvalid
    obtain ⟨i, hi⟩ := mem_iff_getElem?.mp hb
    have hfresh : b.ramBlock.id ∉ saved.map (·.ramBlock.id) := by
      simp only [map_append, map_cons, nodup_append, mem_cons] at hnodup
      exact fun h => hnodup.2.2 _ h _ (.inl rfl) rfl
    obtain ⟨bytes, w1, l1, hput, hl1, hread⟩ := hl.readsBack opens hids hi hvalidb hfresh (by
      simp only [map_append, map_cons, sum_append, sum_cons] at hsum
      omega)
    obtain ⟨bytes', l2, w2, hput', hl2, hread'⟩ := ih hl1 hmem hvalid (by simpa using hnodup)
      (by simpa using hsum)
    refine ⟨UInt8.ofNat b.ramBlock.id.length :: b.ramBlock.id ++ blockInfo ix b ++ bytes ++ bytes',
      l2, w2, ?_, by simpa using hl2, fun rest => ?_⟩
    · simp only [putBlocks, hput, hput', ok_bind, pure_eq_ok]
    · have hstep := hl.readBlocks_succ hids hi (hread (bytes' ++ rest)) todo.length
      rw [hread' rest] at hstep
      simpa only [length_cons, append_assoc, cons_append] using hstep

/-- What a saver has when it writes the index. -/
structure SaverIndex.Valid (ix : SaverIndex) : Prop where
  ids : (ix.blocks.map (·.ramBlock.id)).Nodup
  blocks : ∀ b ∈ ix.blocks, b.Valid ix

/-- The index is written. A loader on the same blocks reads from it, for each block, the pages that
were saved, and leaves the gap table to be read. -/
theorem readIndex_writeIndex (opens : Bytes → Bool) (ix : SaverIndex) (hvalid : ix.Valid)
    (blocks : List RamBlock) (hblocks : blocks.Perm (ix.blocks.map (·.ramBlock))) :
    ∃ bytes, writeIndex ix = .ok bytes ∧ ∀ gaps, ∃ l,
      readIndex opens blocks (bytes ++ gaps) = .ok (some (l, gaps)) ∧
        l.version = 2 ∧ l.compressed = ix.compressed ∧
        l.blocks = loadedBlocks blocks ix.blocks := by
  have hids : (blocks.map (·.id)).Nodup := by
    rw [(hblocks.map (·.id)).nodup_iff, List.map_map]
    exact hvalid.ids
  have hlt := ix.totalPages_lt
  have hflags : ix.flags < 256 ^ 4 ∧ ix.flags.testBit 0 = ix.compressed := by
    unfold SaverIndex.flags
    cases ix.compressed <;> cases ix.async <;> decide
  have hstart : ({
      version := 2
      compressed := ix.compressed
      capacity := ix.totalPages
      blocks := blocks.map fun b => { ramBlock := b } } : Loader).HasRead ix blocks [] {} := {
    version := rfl
    compressed := rfl
    capacity := rfl
    blocks := by
      refine ext_getElem (by simp [loadedBlocks]) fun i hi hi' => ?_
      simp [loadedBlocks, savedPages]
    pageCount := rfl
    cursor := ix.between_start }
  obtain ⟨bytes, l, w, hput, hl, hread⟩ := readBlocks_putBlocks opens hids ix.blocks hstart
    (fun b hb => hblocks.mem_iff.mpr (List.mem_map_of_mem hb)) hvalid.blocks hvalid.ids
    ix.totalPages_eq.ge
  refine ⟨putBe 4 2 ++ putBe 4 ix.flags ++ putBe 4 ix.totalPages ++ bytes, ?_, fun gaps =>
    ⟨l, ?_, hl.version, hl.compressed, hl.blocks⟩⟩
  · rw [writeIndex, hput, wrapNat_of_lt (by omega)]
    rfl
  · have hlength : blocks.length = ix.blocks.length := by simpa using hblocks.length_eq
    simp only [readIndex, append_assoc, getBe_putBe 4 (show 2 < 256 ^ 4 by norm_num),
      getBe_putBe 4 hflags.1, getBe_putBe 4 (show ix.totalPages < 256 ^ 4 by omega), hflags.2,
      hlength, hread]
    rfl

/-- Two blocks in a compressed file, one of them read-only, and a loader that has them in the other
order. -/
theorem readIndex_writeIndex_two :
    let rom : RamBlock := ⟨[114], 8192, 4096, 0, [], true, by decide, by decide, by decide,
      by decide, by decide⟩
    let ram : RamBlock := ⟨[109, 49], 8192, 4096, 8, [47], false, by decide, by decide, by decide,
      by decide, by decide⟩
    let pages : List IndexPage := [⟨0, 0, zeroHash, false, by decide, by decide⟩,
      ⟨17, 300, List.replicate 16 7, true, by decide, by decide⟩]
    let ix : SaverIndex := ⟨true, true, false, 317, 2, [⟨rom, []⟩, ⟨ram, pages⟩], by decide, rfl,
      by decide⟩
    ∃ bytes, writeIndex ix = .ok bytes ∧ ∀ gaps, ∃ l,
      readIndex (fun _ => false) [ram, rom] (bytes ++ gaps) = .ok (some (l, gaps)) ∧
        l.version = 2 ∧ l.compressed = true ∧
        l.blocks =
          [⟨ram, [⟨0, 0, 0, zeroHash⟩, ⟨0, 17, 300, List.replicate 16 7⟩]⟩, ⟨rom, []⟩] := by
  refine readIndex_writeIndex _ _ ⟨by decide, ?_⟩ _ (.swap _ _ _)
  intro b hb
  simp only [mem_cons, not_mem_nil, or_false] at hb
  rcases hb with rfl | rfl
  · exact ⟨rfl, fun _ => rfl, fun page hpage => by simp at hpage⟩
  refine ⟨rfl, by decide, fun page hpage hzero => ?_⟩
  simp only [mem_cons, not_mem_nil, or_false] at hpage
  rcases hpage with rfl | rfl
  · exact absurd rfl hzero
  · exact ⟨by decide, by decide, by decide, by decide, by decide⟩

end AndroidEmu.RamSnapshot
