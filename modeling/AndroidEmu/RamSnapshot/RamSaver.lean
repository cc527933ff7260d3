import AndroidEmu.RamSnapshot.GapSnapshot
import AndroidEmu.RamSnapshot.RamIndex

/-!
# Saving RAM

An incremental save of `RamSaver` compares each page with the one saved before, by its hash, and
writes pages that have changed over their old place if they fit, else to a gap or to the end, where
the old index was. The order of the batches is an input, and so is what is in RAM and whether a save
is incremental. Saves that are canceled and the contents of the file are left out.
-/

namespace AndroidEmu.RamSnapshot

open CS

/-! ### Gap trackers of a file -/

/-- Files with compressed pages have gaps of any size. -/
inductive GapTracker
  | generic (t : GenericGapTracker)
  | oneSize (t : OneSizeGapTracker)
  deriving DecidableEq

namespace GapTracker

def add : GapTracker → ℤ → ℤ → Checked GapTracker
  | .generic t, start, size => do
    let t ← t.add start size
    return .generic t
  | .oneSize t, start, size => .ok (.oneSize (t.add start size))

def allocate : GapTracker → ℤ → Checked (GapTracker × Option ℤ)
  | .generic t, size => do
    let (t, pos) ← t.allocate size
    return (.generic t, pos)
  | .oneSize t, size => do
    let (t, pos) ← t.allocate size
    return (.oneSize t, pos)

def wastedSpace : GapTracker → ℤ
  | .generic t => t.wastedSpace
  | .oneSize t => t.wastedSpace

def save : GapTracker → Checked Bytes
  | .generic t => t.save
  | .oneSize t => t.save

/-- `load` into the tracker that `readIndex` makes for the file. -/
def load (compressed : Bool) (bs : Bytes) : Checked (GapTracker × Bytes) :=
  if compressed then do
    let (t, rest) ← GenericGapTracker.load bs
    return (.generic t, rest)
  else do
    let (t, rest) ← OneSizeGapTracker.load bs
    return (.oneSize t, rest)

def reload (compressed : Bool) (g : GapTracker) : Checked GapTracker := do
  let bytes ← g.save
  let (g, _) ← load compressed bytes
  return g

/-- The tracker of gaps of any size. -/
def generic? : GapTracker → Option GenericGapTracker
  | .generic t => some t
  | .oneSize _ => none

def gaps : GapTracker → List Gap
  | .generic t => t.byStart
  | .oneSize t => t.pending.map fun start => (start, t.size)

end GapTracker

/-! ### Pages -/

/-- What a save finds in a page of RAM. -/
structure Content where
  zero : Bool
  hash : Bytes
  compressedSize : ℕ
  loaded : Bool
  length_hash : hash.length = 16

/-- `RamSaver::FileIndex::Block::Page`. -/
structure SaverPage extends IndexPage where
  same : Bool
  loaderPage : Option IndexPage
  deriving DecidableEq

/-- The page that the loader has for a saved one. -/
def IndexPage.reread (page : IndexPage) : IndexPage :=
  if page.sizeOnDisk = 0 then
    { page with filePos := 0, hash := zeroHash, length_hash := by decide }
  else page

/-- `RamLoader::findPage`. It compares with `>` where `>=` is meant: at an index that is the number
of pages it returns the first page of the next block, where the model faults. The blocks are in the
order of the file, which is the order of the session that has loaded it. -/
def findPage (blocks : List IndexBlock) (blockIndex : ℕ) (id : Bytes) (pageIndex : ℕ) :
    Checked (Option IndexPage) :=
  match blocks[blockIndex]? with
  | none => .ok none
  | some block => do
    check (block.ramBlock.id = id)
    if block.pages.length < pageIndex then return none
    else
      let page ← readAt block.pages pageIndex
      return some page.reread

/-- A page as it is initialized, after it was looked at for zeros. -/
def newPage (c : Content) (loaderPage : Option IndexPage) : SaverPage where
  sizeOnDisk := if c.zero then 0 else kDefaultPageSize
  filePos := 0
  hash := zeroHash
  hashFilled := false
  sizeOnDisk_lt := by split <;> decide
  length_hash := by decide
  same := false
  loaderPage := loaderPage

/-- A page that is not loaded yet has not changed. -/
def keepUnloaded (onDemand : Bool) (c : Content) (page : SaverPage) : SaverPage :=
  match page.loaderPage with
  | none => page
  | some loaderPage =>
    if onDemand ∧ !c.loaded then
      if loaderPage.sizeOnDisk ≠ 0 then
        { loaderPage with hashFilled := true, same := true, loaderPage := page.loaderPage }
      else
        { page with
          sizeOnDisk := loaderPage.sizeOnDisk
          sizeOnDisk_lt := loaderPage.sizeOnDisk_lt
          filePos := loaderPage.filePos
          same := true }
    else page

/-- `calcHash` of a page that is not zero and has no hash yet. -/
def hashPage (c : Content) (page : SaverPage) : SaverPage :=
  if page.sizeOnDisk ≠ 0 ∧ !page.hashFilled then
    { page with hash := c.hash, length_hash := c.length_hash, hashFilled := true }
  else page

/-- The comparison of a page with the one saved before. -/
def comparePage (page : SaverPage) : Checked SaverPage :=
  match page.loaderPage with
  | none => .error .nullPointer
  | some loaderPage =>
    if loaderPage.sizeOnDisk = 0 ∧ page.sizeOnDisk = 0 then .ok { page with same := true }
    else if page.hash = loaderPage.hash then
      .ok { page with
        same := true
        filePos := loaderPage.filePos
        sizeOnDisk := loaderPage.sizeOnDisk
        sizeOnDisk_lt := loaderPage.sizeOnDisk_lt }
    else .ok page

/-- What `savePage` finds out about a page, with the blocks of the loader if there is one. -/
def classifyPage (loader : Option (List IndexBlock)) (onDemand : Bool) (blockIndex : ℕ) (id : Bytes)
    (c : Content) (pageIndex : ℕ) : Checked SaverPage :=
  match loader with
  | none => .ok (hashPage c (newPage c none))
  | some blocks => do
    let loaderPage ← findPage blocks blockIndex id pageIndex
    comparePage (hashPage c (keepUnloaded onDemand c (newPage c loaderPage)))

def SaverPage.moveTo (page : SaverPage) (filePos : ℤ) : SaverPage :=
  { page with filePos := filePos }

/-- A page that has to be written. -/
def SaverPage.changed (page : SaverPage) : Bool := !page.same && page.sizeOnDisk ≠ 0

/-! ### The state of a save -/

/-- A page by the index of its block and its index there. -/
abbrev PageId := ℕ × ℕ

/-- `RamSaver::FileIndex::Block`, while pages are saved. -/
structure SaverBlock where
  ramBlock : RamBlock
  pages : List SaverPage
  deriving DecidableEq

/-- `RamSaver`. The tracker is that of the loader, if there is one. -/
structure Saver where
  blocks : List SaverBlock
  gaps : Option GapTracker
  currentStreamPos : ℤ

namespace Saver

def page (s : Saver) (id : PageId) : Checked SaverPage := do
  let block ← readAt s.blocks id.1
  readAt block.pages id.2

def setPage (s : Saver) (id : PageId) (page : SaverPage) : Saver :=
  { s with blocks := s.blocks.modify id.1 fun b => { b with pages := b.pages.set id.2 page } }

end Saver

/-! ### Batches -/

/-- The pages of a block that have to be written. -/
def SaverBlock.nonzeroChangedPages (b : SaverBlock) : List ℕ :=
  (List.range b.pages.length).filter fun i => b.pages[i]?.any SaverPage.changed

/-- Cut a list into parts of a size; the last may be smaller. One part is begun. -/
def cut {α : Type} (size : ℕ) : List α → List α → List (List α)
  | [], part => if part.isEmpty then [] else [part]
  | x :: xs, part =>
    if part.length + 1 = size then (part ++ [x]) :: cut size xs []
    else cut size xs (part ++ [x])

def kCompressBufferBatchSize : ℕ := 1024

/-- The batches in the order in which they are passed to the workers. -/
def batches (blocks : List SaverBlock) : List (List PageId) :=
  blocks.zipIdx.flatMap fun (b, blockIndex) =>
    (cut kCompressBufferBatchSize b.nonzeroChangedPages []).map fun batch =>
      batch.map fun pageIndex => (blockIndex, pageIndex)

/-- The batches in the order in which they are written. A list that is not an order of them stands
for the order they had. -/
def arrange {α : Type} (order : List ℕ) (xs : List α) : List α :=
  if order.Perm (List.range xs.length) then order.filterMap fun i => xs[i]? else xs

namespace Saver

def compressPage (compressed : Bool) (ram : ℕ → ℕ → Content) (s : Saver) (id : PageId) :
    Checked (Saver × Unit) := do
  let page ← s.page id
  let compressedSize := (ram id.1 id.2).compressedSize
  if compressed then
    check (0 < compressedSize)
    if h : kDefaultPageSize ≤ compressedSize then
      return (s.setPage id { page with sizeOnDisk := kDefaultPageSize, sizeOnDisk_lt := by decide },
        ())
    else
      return (s.setPage id { page with
        sizeOnDisk := compressedSize
        sizeOnDisk_lt := by unfold kDefaultPageSize at h; omega }, ())
  else
    return (s.setPage id
      { page with sizeOnDisk := kDefaultPageSize, sizeOnDisk_lt := by decide }, ())

def addGap (s : Saver) (start size : ℤ) : Checked Saver :=
  match s.gaps with
  | none => .error .nullPointer
  | some gaps => do
    let gaps ← gaps.add start size
    return { s with gaps := some gaps }

/-- The first loop of `writePage`: a page keeps its place if it fits there, and what it does not
need becomes a gap. -/
def releasePage (s : Saver) (id : PageId) : Checked (Saver × Unit) := do
  let page ← s.page id
  match page.loaderPage with
  | none => return (s, ())
  | some loaderPage =>
    if page.sizeOnDisk ≤ loaderPage.sizeOnDisk then
      let s := s.setPage id (page.moveTo loaderPage.filePos)
      if page.sizeOnDisk < loaderPage.sizeOnDisk then
        let s ← s.addGap (wrapInt64 (loaderPage.filePos + page.sizeOnDisk))
          (loaderPage.sizeOnDisk - page.sizeOnDisk)
        return (s, ())
      else return (s, ())
    else if loaderPage.sizeOnDisk ≠ 0 then
      let s ← s.addGap loaderPage.filePos loaderPage.sizeOnDisk
      return (s, ())
    else return (s, ())

/-- The second loop of `writePage`: a page without a place gets a gap if there is one. -/
def allocatePage (s : Saver) (id : PageId) : Checked (Saver × Unit) := do
  let page ← s.page id
  if page.filePos = 0 then
    match s.gaps with
    | none => .error .nullPointer
    | some gaps => do
      let (gaps, pos) ← gaps.allocate page.sizeOnDisk
      match pos with
      | none => return ({ s with gaps := some gaps }, ())
      | some pos =>
        return ({ s with gaps := some gaps }.setPage id (page.moveTo pos), ())
  else return (s, ())

/-- The third loop of `writePage`: a page without a place is appended. -/
def appendPage (s : Saver) (id : PageId) : Checked (Saver × Unit) := do
  let page ← s.page id
  if page.filePos = 0 then
    let nextStreamPos := s.currentStreamPos + page.sizeOnDisk
    if nextStreamPos < 2 ^ 63 then
      return ({ s.setPage id (page.moveTo s.currentStreamPos) with
        currentStreamPos := nextStreamPos }, ())
    else .error .overflow
  else return (s, ())

/-- `RamSaver::writePage`. -/
def writePage (s : Saver) (batch : List PageId) : Checked Saver := do
  let s ← if s.gaps.isSome then do
      let s ← (run releasePage s batch).2
      (run allocatePage s batch).2
    else .ok s
  (run appendPage s batch).2

/-- `handlePageSave` and `writePage`. -/
def saveBatch (compressed : Bool) (ram : ℕ → ℕ → Content) (s : Saver) (batch : List PageId) :
    Checked (Saver × Unit) := do
  let s ← (run (compressPage compressed ram) s batch).2
  let s ← s.writePage batch
  return (s, ())

end Saver

/-! ### Saves -/

/-- A file with a snapshot of RAM: the index, its bytes and the tracker of its gap table. -/
structure Saved where
  index : SaverIndex
  bytes : Bytes
  gaps : GapTracker

structure SaveInput where
  full : Bool := false
  compress : Bool := true
  async : Bool := false
  onDemand : Bool := false
  blocks : List RamBlock
  ram : ℕ → ℕ → Content
  order : List ℕ := []

/-- `savePage`, at the first page of a block: all pages of the block are looked at. -/
def savePage (loader : Option (List IndexBlock)) (x : SaveInput) (blockIndex : ℕ) (b : RamBlock) :
    Checked SaverBlock :=
  if b.skipped x.async then .ok ⟨b, []⟩
  else do
    check (b.totalSize % kDefaultPageSize = 0)
    let pages ← tabulate
      (fun i => classifyPage loader x.onDemand blockIndex b.id (x.ram blockIndex i) i)
      (b.totalSize / kDefaultPageSize)
    return ⟨{ b with pageSize := kDefaultPageSize }, pages⟩

/-- All blocks are registered and their pages are saved. -/
def saveBlocks (loader : Option (List IndexBlock)) (x : SaveInput) : Checked (List SaverBlock) :=
  tabulate (fun i => do
    let b ← readAt x.blocks i
    savePage loader x i b) x.blocks.length

def SaverBlock.toIndexBlock (b : SaverBlock) : IndexBlock :=
  ⟨b.ramBlock, b.pages.map SaverPage.toIndexPage⟩

/-- `passToSaveHandler` with the stop marker: the index is written. -/
def finish (compressed async : Bool) (s : Saver) : Checked Saved :=
  let blocks := s.blocks.map SaverBlock.toIndexBlock
  let totalPages := (blocks.map fun b => b.pages.length).sum
  if h : s.currentStreamPos < 2 ^ 63 ∧ totalPages < 2 ^ 31 then do
    let index : SaverIndex :=
      ⟨compressed, async, false, s.currentStreamPos, totalPages, blocks, h.1, rfl, h.2⟩
    let bytes ← writeIndex index
    return ⟨index, bytes, s.gaps.getD (.oneSize {})⟩
  else .error .overflow

def loadGaps : Option Saved → Checked (Option GapTracker)
  | none => .ok none
  | some file => do
    let gaps ← file.gaps.reload file.index.compressed
    return some gaps

/-- A save. It is incremental if there is a file and the new one need not be full. -/
def save (file : Option Saved) (x : SaveInput) : Checked (Option Saved × Unit) := do
  let loader := if x.full then none else file
  let gaps ← loadGaps loader
  let compressed := (loader.map fun file => file.index.compressed).getD x.compress
  let blocks ← saveBlocks (loader.map fun file => file.index.blocks) x
  let start := (loader.map fun file => file.index.startPosInFile).getD 8
  let s ← (run (Saver.saveBatch compressed x.ram) ⟨blocks, gaps, start⟩
    (arrange x.order (batches blocks))).2
  let file ← finish compressed x.async s
  return (some file, ())

end AndroidEmu.RamSnapshot
