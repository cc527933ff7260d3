import AndroidEmu.Base.PoolBlock

/-!
# Pools

`Pool::Impl` of `android/base/Pool.cpp` has one heap for each size, each twice as large as the one
before. The number of heaps is computed by other roundings than the index, so it may be one short,
and all of it counts on the smallest size being a power of two.
-/

namespace AndroidEmu.Base.Pool

open CS Checked List Option Block Nat

/-! ### The pool -/

/-- The block of the heap, and where its memory starts. -/
structure HeapInfo where
  block : Block
  start : ℕ

/-- The interval of an allocation. -/
def HeapInfo.contains (info : HeapInfo) (ptr : ℕ) : Bool :=
  info.start ≤ ptr && ptr < info.start + info.block.sizeBytes

/-- `Pool::Impl`. -/
structure Impl where
  minAllocSize : ℕ
  minAllocLog2 : ℕ
  maxFastSize : ℕ
  chunksPerSize : ℕ
  heaps : List HeapInfo

/-- A heap of the table, with memory at the given place. -/
def HeapInfo.new (allocSize chunksPerSize start : ℕ) : Checked HeapInfo := do
  let block ← Block.new allocSize chunksPerSize
  return ⟨block, start⟩

namespace Impl

/-- The constructor. The host gives the memory of the `i`-th heap at `place i`. -/
def new (minSize maxSize chunksPerSize : ℕ) (place : ℕ → ℕ) : Checked Impl := do
  let minAllocSize := max 8 minSize
  let minAllocLog2 ← ilog2Floor minAllocSize
  let last ← ilog2Floor (maxSize >>> minAllocLog2)
  let heaps ← (List.range (1 + last)).mapM fun i =>
    HeapInfo.new (wrapNat 64 (minAllocSize <<< i)) chunksPerSize (place i)
  return ⟨minAllocSize, minAllocLog2, maxSize, chunksPerSize, heaps⟩

def heapIndex (p : Impl) (wantedSize : ℕ) : Checked ℕ := do
  let least ← leastPowerof2 wantedSize
  ilog2Floor (max p.minAllocSize least >>> p.minAllocLog2)

/-- `Pool::alloc`. -/
def alloc (p : Impl) (wantedSize : ℕ) : Checked (Impl × Option ℕ) :=
  if p.maxFastSize < wantedSize then .ok (p, none)
  else do
    let index ← p.heapIndex wantedSize
    let info ← readAt p.heaps index
    if info.block.isFull then return (p, none)
    let (block, ptr) ← info.block.alloc
    return ({ p with heaps := p.heaps.set index ⟨block, info.start⟩ }, ptr.map (info.start + ·))

def findHeap (p : Impl) (ptr : ℕ) : Option ℕ := p.heaps.findIdx? (·.contains ptr)

/-- `Pool::free`. -/
def free (p : Impl) (ptr : ℕ) : Checked (Impl × Bool) :=
  match p.findHeap ptr with
  | none => .ok (p, false)
  | some i => do
    let info ← readAt p.heaps i
    let block ← info.block.free (ptr - info.start)
    return ({ p with heaps := p.heaps.set i ⟨block, info.start⟩ }, true)

/-- `Pool::freeAll`. -/
def freeAll (p : Impl) : Impl :=
  { p with heaps := p.heaps.map fun info => ⟨info.block.freeAll, info.start⟩ }

/-- The user writes to the first bytes of an allocation. -/
def write (p : Impl) (ptr value : ℕ) : Checked Impl :=
  match p.findHeap ptr with
  | none => .error .outOfBounds
  | some i => do
    let info ← readAt p.heaps i
    let block ← info.block.store (ptr - info.start) value
    return { p with heaps := p.heaps.set i ⟨block, info.start⟩ }

end Impl

/-! ### The pool and its user -/

/-- An allocation: its address, and the size that was wanted. -/
structure Allocation where
  ptr : ℕ
  size : ℕ
  deriving DecidableEq, Repr

/-- What a user does. Live allocations are named by their place in the list. -/
inductive Op
  | alloc (wantedSize : ℕ)
  | free (i : ℕ)
  | freeAll
  | write (i value : ℕ)
  deriving DecidableEq, Repr

/-- The pool, and the allocations that are live, the newest first. -/
structure State where
  pool : Impl
  live : List Allocation

/-- The pool and its user as a machine, which puts out the pointers of `alloc`. -/
def step (s : State) : Op → Checked (State × Option ℕ)
  | .alloc wantedSize => do
    let (pool, ptr) ← s.pool.alloc wantedSize
    match ptr with
    | none => return (⟨pool, s.live⟩, none)
    | some ptr => return (⟨pool, ⟨ptr, wantedSize⟩ :: s.live⟩, some ptr)
  | .free i =>
    match s.live[i]? with
    | none => .ok (s, none)
    | some a => do
      let (pool, _) ← s.pool.free a.ptr
      return (⟨pool, s.live.eraseIdx i⟩, none)
  | .freeAll => .ok (⟨s.pool.freeAll, []⟩, none)
  | .write i value =>
    match s.live[i]? with
    | none => .ok (s, none)
    | some a => do
      let pool ← s.pool.write a.ptr value
      return (⟨pool, s.live⟩, none)

/-- Live allocations do not overlap, and each lies in the memory of a heap. -/
structure Sound (s : State) : Prop where
  disjoint : s.live.Pairwise fun a b => a.ptr + a.size ≤ b.ptr ∨ b.ptr + b.size ≤ a.ptr
  inside : ∀ a ∈ s.live, ∃ info ∈ s.pool.heaps,
    info.start ≤ a.ptr ∧ a.ptr + a.size ≤ info.start + info.block.sizeBytes

/-- A request within the range is refused only if all chunks of its heap are live; what is freed is
handed out for the next request that its heap serves. -/
def Answers (s : State) : Op → State → Option ℕ → Prop
  | .alloc wantedSize, _, ptr =>
    wantedSize ≤ s.pool.maxFastSize → ptr = none →
      ∃ i info, s.pool.heapIndex wantedSize = .ok i ∧ s.pool.heaps[i]? = some info ∧
        s.live.countP (fun a => info.contains a.ptr) = info.block.numChunks
  | .free i, s', _ =>
    ∀ a, s.live[i]? = some a → ∀ wantedSize j info, wantedSize ≤ s.pool.maxFastSize →
      s.pool.heapIndex wantedSize = .ok j → s.pool.heaps[j]? = some info →
      info.contains a.ptr = true → ∃ s'', step s' (.alloc wantedSize) = .ok (s'', some a.ptr)
  | _, _, _ => True

/-- The numbers of a pool: the smallest size is a power of two; the largest is a multiple of it, or
their quotient is no power of two; and the memory of the largest heap is a `size_t`. -/
structure Sizes (minSize maxSize chunksPerSize : ℕ) : Prop where
  power : ∃ k, max 8 minSize = 2 ^ k
  table : maxSize % max 8 minSize = 0 ∨ ∀ j, maxSize / max 8 minSize ≠ 2 ^ j
  memory : max 8 minSize * 2 ^ Nat.clog 2 (maxSize / max 8 minSize) * chunksPerSize < 2 ^ 64

/-- The host gives disjoint memory to the heaps. -/
def Apart (minSize maxSize chunksPerSize : ℕ) (place : ℕ → ℕ) : Prop :=
  ∀ i j, i < j → j ≤ Nat.clog 2 (maxSize / max 8 minSize) →
    place i + max 8 minSize * 2 ^ i * chunksPerSize ≤ place j ∨
      place j + max 8 minSize * 2 ^ j * chunksPerSize ≤ place i

/-! ### What stays -/

/-- The numbers of a pool that works. -/
structure Plan where
  log2 : ℕ
  last : ℕ
  chunks : ℕ
  maxSize : ℕ
  place : ℕ → ℕ
  word_le : 3 ≤ log2
  chunks_pos : 0 < chunks
  last_eq : last = Nat.clog 2 (maxSize / 2 ^ log2)
  reaches : maxSize ≤ 2 ^ (log2 + last)
  memory : 2 ^ (log2 + last) * chunks < 2 ^ 64
  apart : ∀ i j, i < j → j ≤ last → place i + 2 ^ (log2 + i) * chunks ≤ place j ∨
    place j + 2 ^ (log2 + j) * chunks ≤ place i

variable {m q i k w ptr minSize maxSize chunksPerSize : ℕ}

theorem reaches_of_table (h : m % q = 0 ∨ ∀ j, m / q ≠ 2 ^ j) (hq : 0 < q) :
    m ≤ q * 2 ^ Nat.clog 2 (m / q) := by
  have hle : m / q ≤ 2 ^ clog 2 (m / q) := Nat.le_pow_clog (by norm_num) _
  have hdiv := div_add_mod m q
  have hmod := mod_lt m hq
  rcases h with hzero | hpower
  · calc m = q * (m / q) := by omega
      _ ≤ q * 2 ^ clog 2 (m / q) := mul_le_mul_left _ hle
  · have hlt : m / q < 2 ^ clog 2 (m / q) := lt_of_le_of_ne hle (hpower _)
    calc m ≤ q * (m / q + 1) := by rw [mul_succ]; omega
      _ ≤ q * 2 ^ clog 2 (m / q) := mul_le_mul_left _ hlt

namespace Plan

variable (l : Plan)

/-- What all blocks of the pool look like. -/
def shape (i : ℕ) : Shape :=
  ⟨2 ^ (l.log2 + i), l.log2 + i, l.chunks, 2 ^ (l.log2 + i) * l.chunks⟩

variable {l} {i j w : ℕ}

theorem pow_le (hi : i ≤ l.last) : 2 ^ (l.log2 + i) ≤ 2 ^ (l.log2 + l.last) :=
  Nat.pow_le_pow_right (by norm_num) (by omega)

theorem log2_add_last_lt (l : Plan) : l.log2 + l.last < 64 := by
  have hlt := (Nat.le_mul_of_pos_right (2 ^ (l.log2 + l.last)) l.chunks_pos).trans_lt l.memory
  exact (Nat.pow_lt_pow_iff_right (by norm_num)).mp hlt

theorem memory_lt (hi : i ≤ l.last) : 2 ^ (l.log2 + i) * l.chunks < 2 ^ 64 :=
  (mul_le_mul_right _ (pow_le hi)).trans_lt l.memory

theorem clog_le (hw : w ≤ l.maxSize) : Nat.clog 2 w ≤ l.log2 + l.last :=
  clog_le_of_le_pow (hw.trans l.reaches)

theorem le_chunk (l : Plan) (w : ℕ) : w ≤ 2 ^ (l.log2 + (Nat.clog 2 w - l.log2)) :=
  (Nat.le_pow_clog (by norm_num) w).trans (Nat.pow_le_pow_right (by norm_num) (by omega))

end Plan

/-- An allocation as the pool sees it: a chunk of a heap. -/
structure Piece where
  heap : ℕ
  element : ℕ
  size : ℕ

def Piece.allocation (l : Plan) (q : Piece) : Allocation :=
  ⟨l.place q.heap + 2 ^ (l.log2 + q.heap) * q.element, q.size⟩

def elements (pieces : List Piece) (i : ℕ) : List ℕ :=
  (pieces.filter (·.heap = i)).map (·.element)

theorem elements_cons_self (q : Piece) (pieces : List Piece) :
    elements (q :: pieces) q.heap = q.element :: elements pieces q.heap := by
  simp [elements]

theorem elements_cons_of_ne {q : Piece} (h : i ≠ q.heap) (pieces : List Piece) :
    elements (q :: pieces) i = elements pieces i := by
  simp [elements, Ne.symm h]

theorem element_mem_elements {q : Piece} {pieces : List Piece} (h : q ∈ pieces) :
    q.element ∈ elements pieces q.heap :=
  mem_map.mpr ⟨q, mem_filter.mpr ⟨h, by simp⟩, rfl⟩

theorem elements_perm {pieces pieces' : List Piece} (h : pieces.Perm pieces') (i : ℕ) :
    (elements pieces i).Perm (elements pieces' i) := (h.filter _).map _

/-- The table has a heap of each size, and their live chunks are the pieces. -/
structure Impl.Holds (l : Plan) (p : Impl) (pieces : List Piece) : Prop where
  minAllocSize_eq : p.minAllocSize = 2 ^ l.log2
  minAllocLog2_eq : p.minAllocLog2 = l.log2
  maxFastSize_eq : p.maxFastSize = l.maxSize
  length_heaps : p.heaps.length = l.last + 1
  heap : ∀ i info, p.heaps[i]? = some info →
    info.start = l.place i ∧ info.block.toShape = l.shape i ∧ info.block.Holds (elements pieces i)
  piece : ∀ q ∈ pieces, q.heap ≤ l.last ∧ q.size ≤ 2 ^ (l.log2 + q.heap)

namespace Impl.Holds

variable {l : Plan} {p : Impl} {pieces pieces' : List Piece} {info : HeapInfo} {i w : ℕ}

section

variable (h : p.Holds l pieces)

include h

theorem exists_heap (hi : i ≤ l.last) : ∃ info, p.heaps[i]? = some info :=
  ⟨_, getElem?_eq_getElem (by rw [h.length_heaps]; omega)⟩

theorem le_last (hinfo : p.heaps[i]? = some info) : i ≤ l.last := by
  obtain ⟨hlt, _⟩ := List.getElem?_eq_some_iff.mp hinfo
  have := h.length_heaps
  omega

theorem heapIndex_eq (hw : w ≤ l.maxSize) :
    p.heapIndex w = .ok (Nat.clog 2 w - l.log2) ∧ Nat.clog 2 w - l.log2 ≤ l.last := by
  have hclog := Plan.clog_le hw
  have hlt := l.log2_add_last_lt
  have hword : w ≤ 2 ^ 63 :=
    (Nat.le_pow_clog (by norm_num) w).trans (Nat.pow_le_pow_right (by norm_num) (by omega))
  -- the larger of two powers, shifted
  have hmax : max (2 ^ l.log2) (2 ^ clog 2 w) = 2 ^ l.log2 * 2 ^ (clog 2 w - l.log2) := by
    rw [← pow_add]
    rcases le_total (clog 2 w) l.log2 with hle | hle
    · rw [max_eq_left (Nat.pow_le_pow_right (by norm_num) hle)]
      congr 1
      omega
    · rw [max_eq_right (Nat.pow_le_pow_right (by norm_num) hle)]
      congr 1
      omega
  refine ⟨?_, by omega⟩
  unfold heapIndex
  rw [leastPowerof2_eq hword, ok_bind, h.minAllocSize_eq, h.minAllocLog2_eq, hmax,
    Nat.shiftRight_eq_div_pow, Nat.mul_div_cancel_left _ (by positivity),
    ilog2Floor_eq (Nat.pow_le_pow_right (by norm_num) (by omega)), clog_pow 2 _ (by norm_num)]

theorem set (hinfo : p.heaps[i]? = some info) {b : Block}
    (hshape : b.toShape = l.shape i) (hb : b.Holds (elements pieces' i))
    (hother : ∀ j, j ≠ i → (elements pieces j).Perm (elements pieces' j))
    (hpiece : ∀ q ∈ pieces', q.heap ≤ l.last ∧ q.size ≤ 2 ^ (l.log2 + q.heap)) :
    Holds l { p with heaps := p.heaps.set i ⟨b, info.start⟩ } pieces' := by
  refine { h with length_heaps := length_set.trans h.length_heaps, piece := hpiece, heap := ?_ }
  · intro j info' hinfo'
    by_cases hj : j = i
    · subst hj
      obtain ⟨hlt, _⟩ := List.getElem?_eq_some_iff.mp hinfo
      rw [getElem?_set_self hlt] at hinfo'
      cases hinfo'
      exact ⟨(h.heap j info hinfo).1, hshape, hb⟩
    · rw [getElem?_set_ne (Ne.symm hj)] at hinfo'
      obtain ⟨hstart, hshape', hb'⟩ := h.heap j info' hinfo'
      exact ⟨hstart, hshape', hb'.perm (hother j hj)⟩

end

variable {q : Piece}

section

variable (h : p.Holds l pieces)

include h

theorem chunk_le (hq : q ∈ pieces) : 2 ^ (l.log2 + q.heap) * q.element + 2 ^ (l.log2 + q.heap) ≤
      2 ^ (l.log2 + q.heap) * l.chunks := by
  obtain ⟨info, hinfo⟩ := h.exists_heap (h.piece q hq).1
  obtain ⟨_, hshape, hb⟩ := h.heap q.heap info hinfo
  have hlt := hb.live_lt (element_mem_elements hq)
  rw [hshape] at hlt
  exact mul_le_mul_left _ hlt

theorem contains_iff (hinfo : p.heaps[i]? = some info)
    (hq : q ∈ pieces) : info.contains (q.allocation l).ptr = true ↔ q.heap = i := by
  obtain ⟨hstart, hshape, _⟩ := h.heap i info hinfo
  have hsize : info.block.sizeBytes = 2 ^ (l.log2 + i) * l.chunks :=
    congrArg Shape.sizeBytes hshape
  have hi := h.le_last hinfo
  have hchunk := h.chunk_le hq
  have hpos : 0 < 2 ^ (l.log2 + q.heap) := by positivity
  have hlast := (h.piece q hq).1
  simp only [HeapInfo.contains, Piece.allocation, hstart, hsize, Bool.and_eq_true,
    decide_eq_true_eq]
  constructor
  · rintro ⟨hlo, hhi⟩
    by_contra hne
    rcases lt_or_gt_of_ne hne with hlt | hlt
    · rcases l.apart _ _ hlt hi with hap | hap <;> omega
    · rcases l.apart _ _ hlt hlast with hap | hap <;> omega
  · rintro rfl
    omega

theorem findHeap_eq (hq : q ∈ pieces) : p.findHeap (q.allocation l).ptr = some q.heap := by
  obtain ⟨info, hinfo⟩ := h.exists_heap (h.piece q hq).1
  obtain ⟨hlt, hget⟩ := List.getElem?_eq_some_iff.mp hinfo
  rw [findHeap, findIdx?_eq_some_iff_getElem]
  refine ⟨hlt, ?_, ?_⟩
  · rw [hget]
    exact (h.contains_iff hinfo hq).mpr rfl
  · intro j hj
    have hother := h.contains_iff (getElem?_eq_getElem (hj.trans hlt)) hq
    intro hcontains
    exact hj.ne' (hother.mp hcontains)

theorem alloc (hw : w ≤ l.maxSize)
    (hinfo : p.heaps[Nat.clog 2 w - l.log2]? = some info) (hfree : info.block.numFree ≠ 0) :
    ∃ p' q, p.alloc w = .ok (p', some (q.allocation l).ptr) ∧ q.size = w ∧
      info.block.nextFree.map (info.start + ·) = some (q.allocation l).ptr ∧
      Holds l p' (q :: pieces) := by
  obtain ⟨hindex, hle⟩ := h.heapIndex_eq hw
  set i := clog 2 w - l.log2 with hi
  obtain ⟨hstart, hshape, hb⟩ := h.heap i info hinfo
  obtain ⟨b, e, hnext, halloc, hb', hshape'⟩ := hb.alloc hfree
  have hchunk : info.block.chunkSize = 2 ^ (l.log2 + i) := congrArg Shape.chunkSize hshape
  have hptr : info.block.nextFree.map (info.start + ·) =
      some (Piece.allocation l ⟨i, e, w⟩).ptr := by
    rw [hnext, hstart, hchunk]
    rfl
  refine ⟨{ p with heaps := p.heaps.set i ⟨b, info.start⟩ }, ⟨i, e, w⟩, ?_, rfl, hptr, ?_⟩
  · unfold Impl.alloc
    rw [if_neg (by rw [h.maxFastSize_eq]; omega), hindex, ok_bind,
      readAt_of_getElem? hinfo, ok_bind, if_neg (by simpa [isFull] using hfree),
      halloc, ← hptr]
    rfl
  · apply h.set hinfo (hshape'.trans hshape)
    · rw [elements_cons_self]
      exact hb'
    · intro j hj
      rw [elements_cons_of_ne hj]
    · intro q hq
      rcases mem_cons.mp hq with rfl | hq
      · exact ⟨hle, l.le_chunk w⟩
      · exact h.piece q hq

theorem alloc_full (hw : w ≤ l.maxSize) (hinfo : p.heaps[Nat.clog 2 w - l.log2]? = some info)
    (hfull : info.block.numFree = 0) : p.alloc w = .ok (p, none) := by
  unfold Impl.alloc
  rw [if_neg (by rw [h.maxFastSize_eq]; omega), (h.heapIndex_eq hw).1, ok_bind,
    readAt_of_getElem? hinfo, ok_bind, if_pos (by simpa [isFull] using hfull)]
  rfl

theorem free (hq : pieces[k]? = some q) :
    ∃ p' info', p.free (q.allocation l).ptr = .ok (p', true) ∧ Holds l p' (pieces.eraseIdx k) ∧
      p'.heaps[q.heap]? = some info' ∧ info'.block.numFree ≠ 0 ∧
      info'.block.nextFree.map (info'.start + ·) = some (q.allocation l).ptr := by
  have hmem : q ∈ pieces := mem_of_getElem? hq
  obtain ⟨info, hinfo⟩ := h.exists_heap (h.piece q hmem).1
  obtain ⟨hstart, hshape, hb⟩ := h.heap q.heap info hinfo
  have hchunk : info.block.chunkSize = 2 ^ (l.log2 + q.heap) := congrArg Shape.chunkSize hshape
  obtain ⟨b, hfree, hb', hshape', hnum, hnext⟩ := hb.free (element_mem_elements hmem)
  obtain ⟨hlt, _⟩ := List.getElem?_eq_some_iff.mp hinfo
  have hoffset : (q.allocation l).ptr - info.start = info.block.chunkSize * q.element := by
    rw [hstart, hchunk]
    exact Nat.add_sub_cancel_left _ _
  -- the pieces of the heap without this one
  have hperm : pieces.Perm (q :: pieces.eraseIdx k) := by
    obtain ⟨hk, hget⟩ := List.getElem?_eq_some_iff.mp hq
    rw [← hget]
    exact (getElem_cons_eraseIdx_perm hk).symm
  have helements : ((elements pieces q.heap).erase q.element).Perm
      (elements (pieces.eraseIdx k) q.heap) := by
    have := elements_perm hperm q.heap
    rw [elements_cons_self] at this
    exact ((perm_cons_erase (element_mem_elements hmem)).symm.trans this).cons_inv
  have hother : ∀ j, j ≠ q.heap → (elements pieces j).Perm (elements (pieces.eraseIdx k) j) := by
    intro j hj
    have := elements_perm hperm j
    rwa [elements_cons_of_ne hj] at this
  refine ⟨{ p with heaps := p.heaps.set q.heap ⟨b, info.start⟩ }, ⟨b, info.start⟩,
    ?_, ?_, ?_, ?_, ?_⟩
  · unfold Impl.free
    rw [h.findHeap_eq hmem]
    simp only
    rw [readAt_of_getElem? hinfo, ok_bind, hoffset, hfree]
    rfl
  · apply h.set hinfo (hshape'.trans hshape) (hb'.perm helements) hother
    exact fun q' hq' => h.piece q' (mem_of_mem_eraseIdx hq')
  · exact getElem?_set_self hlt
  · change b.numFree ≠ 0
    omega
  · change b.nextFree.map (info.start + ·) = _
    rw [hnext, hstart, hchunk]
    rfl

theorem freeAll : p.freeAll.Holds l [] := by
  refine { h with
    length_heaps := (length_map _).trans h.length_heaps, heap := ?_, piece := by simp }
  intro i info hinfo
  obtain ⟨info0, hinfo0, rfl⟩ := map_eq_some_iff.mp ((getElem?_map ..).symm.trans hinfo)
  obtain ⟨hstart, hshape, hb⟩ := h.heap i info0 hinfo0
  exact ⟨hstart, hshape, hb.freeAll⟩

theorem write (hq : q ∈ pieces) (value : ℕ) :
    ∃ p', p.write (q.allocation l).ptr value = .ok p' ∧ Holds l p' pieces := by
  obtain ⟨info, hinfo⟩ := h.exists_heap (h.piece q hq).1
  obtain ⟨hstart, hshape, hb⟩ := h.heap q.heap info hinfo
  have hchunk : info.block.chunkSize = 2 ^ (l.log2 + q.heap) := congrArg Shape.chunkSize hshape
  have hmem := element_mem_elements hq
  have hoffset : (q.allocation l).ptr - info.start = info.block.chunkSize * q.element := by
    rw [hstart, hchunk]
    exact Nat.add_sub_cancel_left _ _
  refine ⟨{ p with heaps := p.heaps.set q.heap ⟨info.block.setNext q.element value, info.start⟩ },
    ?_, ?_⟩
  · unfold Impl.write
    rw [h.findHeap_eq hq]
    simp only
    rw [readAt_of_getElem? hinfo, ok_bind, hoffset, store_eq hb.regular (hb.live_lt hmem)]
    rfl
  · exact h.set hinfo hshape (hb.setNext hmem value) (fun _ _ => .refl _) h.piece

theorem pairwise : pieces.Pairwise fun a b => a.heap ≠ b.heap ∨ a.element ≠ b.element := by
  have hnodup : ∀ i, (elements pieces i).Nodup := by
    intro i
    by_cases hi : i ≤ l.last
    · obtain ⟨info, hinfo⟩ := h.exists_heap hi
      exact (h.heap i info hinfo).2.2.nodup
    have hnil : elements pieces i = [] := by
      simp only [elements, map_eq_nil_iff, filter_eq_nil_iff, decide_eq_true_eq]
      rintro q hq rfl
      exact hi (h.piece q hq).1
    rw [hnil]
    exact nodup_nil
  clear h
  induction pieces with
  | nil => exact Pairwise.nil
  | cons q pieces ih =>
    refine Pairwise.cons ?_ (ih fun i => ?_)
    · intro q' hq'
      by_contra hsame
      push Not at hsame
      have hq := hnodup q.heap
      rw [elements_cons_self, nodup_cons] at hq
      rw [hsame.1, hsame.2] at hq
      exact hq.1 (element_mem_elements hq')
    · by_cases hi : i = q.heap
      · subst hi
        have hq := hnodup q.heap
        rw [elements_cons_self, nodup_cons] at hq
        exact hq.2
      · have hq := hnodup i
        rwa [elements_cons_of_ne hi] at hq

theorem countP_eq (hinfo : p.heaps[i]? = some info) :
    (pieces.map (Piece.allocation l)).countP (fun a => info.contains a.ptr) =
      (elements pieces i).length := by
  rw [countP_map, elements, length_map, ← countP_eq_length_filter]
  apply countP_congr
  intro q hq
  rw [decide_eq_true_eq]
  exact h.contains_iff hinfo hq

end

end Impl.Holds

/-! ### Runs -/

/-- The live allocations are pieces of the pool. -/
def State.Holds (l : Plan) (s : State) : Prop :=
  ∃ pieces, s.pool.Holds l pieces ∧ s.live = pieces.map (Piece.allocation l)

variable {l : Plan} {s : State}

theorem State.Holds.sound (h : s.Holds l) : Sound s := by
  obtain ⟨pieces, hpool, hlive⟩ := h
  constructor
  · rw [hlive, pairwise_map]
    refine hpool.pairwise.imp_of_mem ?_
    intro a b ha hb hne
    have hsize := (hpool.piece a ha).2
    have hsize' := (hpool.piece b hb).2
    have hle := hpool.chunk_le ha
    have hle' := hpool.chunk_le hb
    simp only [Piece.allocation]
    by_cases hheap : a.heap = b.heap
    · -- two chunks of one heap
      have helement : a.element ≠ b.element := hne.resolve_left (fun hn => hn hheap)
      rw [hheap] at hsize ⊢
      rcases lt_or_gt_of_ne helement with hlt | hlt
      · have := mul_le_mul_left (2 ^ (l.log2 + b.heap)) (succ_le_of_lt hlt)
        rw [mul_succ] at this
        omega
      · have := mul_le_mul_left (2 ^ (l.log2 + b.heap)) (succ_le_of_lt hlt)
        rw [mul_succ] at this
        omega
    · rcases lt_or_gt_of_ne hheap with hlt | hlt
      · rcases l.apart _ _ hlt (hpool.piece b hb).1 with hap | hap <;> omega
      · rcases l.apart _ _ hlt (hpool.piece a ha).1 with hap | hap <;> omega
  · intro a ha
    rw [hlive] at ha
    obtain ⟨q, hq, rfl⟩ := mem_map.mp ha
    obtain ⟨info, hinfo⟩ := hpool.exists_heap (hpool.piece q hq).1
    obtain ⟨hstart, hshape, _⟩ := hpool.heap q.heap info hinfo
    have hbytes : info.block.sizeBytes = 2 ^ (l.log2 + q.heap) * l.chunks :=
      congrArg Shape.sizeBytes hshape
    have hsize := (hpool.piece q hq).2
    have hle := hpool.chunk_le hq
    refine ⟨info, mem_of_getElem? hinfo, ?_, ?_⟩
    · rw [hstart]
      exact le_add_right _ _
    · rw [hstart, hbytes]
      simp only [Piece.allocation]
      omega

theorem step_alloc_none (h : s.pool.alloc w = .ok (s.pool, none)) :
    step s (.alloc w) = .ok (s, none) := by
  simp only [step, h, ok_bind]
  rfl

theorem step_alloc_some {p : Impl} (h : s.pool.alloc w = .ok (p, some ptr)) :
    step s (.alloc w) = .ok (⟨p, ⟨ptr, w⟩ :: s.live⟩, some ptr) := by
  simp only [step, h, ok_bind]
  rfl

theorem State.Holds.alloc (h : s.Holds l) (w : ℕ) :
    ∃ s' r, step s (.alloc w) = .ok (s', r) ∧ s'.Holds l ∧ Answers s (.alloc w) s' r := by
  obtain ⟨pieces, hpool, hlive⟩ := h
  by_cases hw : w ≤ l.maxSize
  · obtain ⟨hindex, hle⟩ := hpool.heapIndex_eq hw
    obtain ⟨info, hinfo⟩ := hpool.exists_heap hle
    by_cases hfull : info.block.numFree = 0
    · refine ⟨s, none, step_alloc_none (hpool.alloc_full hw hinfo hfull), ⟨pieces, hpool, hlive⟩,
        fun _ _ => ⟨_, info, hindex, hinfo, ?_⟩⟩
      have hcount := (hpool.heap _ info hinfo).2.2.numFree_add
      rw [hlive, hpool.countP_eq hinfo]
      omega
    · obtain ⟨p', q, halloc, hsize, _, hpool'⟩ := hpool.alloc hw hinfo hfull
      refine ⟨_, _, step_alloc_some halloc, ⟨q :: pieces, hpool', ?_⟩,
        fun _ hnone => by cases hnone⟩
      rw [← hsize, hlive]
      rfl
  · have hrefused : s.pool.alloc w = .ok (s.pool, none) :=
      if_pos (by rw [hpool.maxFastSize_eq]; omega)
    refine ⟨s, none, step_alloc_none hrefused, ⟨pieces, hpool, hlive⟩, fun hle _ => ?_⟩
    rw [hpool.maxFastSize_eq] at hle
    exact absurd hle hw

theorem State.Holds.free (h : s.Holds l) (k : ℕ) :
    ∃ s' r, step s (.free k) = .ok (s', r) ∧ s'.Holds l ∧ Answers s (.free k) s' r := by
  obtain ⟨pieces, hpool, hlive⟩ := h
  have hget : s.live[k]? = pieces[k]?.map (Piece.allocation l) := by rw [hlive, getElem?_map]
  cases hq : pieces[k]? with
  | none =>
    rw [hq, map_none] at hget
    refine ⟨s, none, ?_, ⟨pieces, hpool, hlive⟩, fun a ha => ?_⟩
    · simp only [step, hget]
    · rw [hget] at ha
      cases ha
  | some q =>
    rw [hq, map_some] at hget
    obtain ⟨p', info', hfree, hpool', hinfo', hnum, hnext⟩ := hpool.free hq
    refine ⟨⟨p', s.live.eraseIdx k⟩, none, ?_, ⟨pieces.eraseIdx k, hpool', ?_⟩, ?_⟩
    · simp only [step, hget, hfree, ok_bind]
      rfl
    · change s.live.eraseIdx k = _
      rw [hlive, eraseIdx_map]
    · -- the next request of this heap gets what its list begins with
      intro a ha w j info hw hindex hinfo hcontains
      obtain rfl : q.allocation l = a := by
        rw [hget] at ha
        exact some.inj ha
      rw [hpool.maxFastSize_eq] at hw
      have hj := (hpool.heapIndex_eq hw).1
      rw [hindex] at hj
      have hheap := (hpool.contains_iff hinfo (mem_of_getElem? hq)).mp hcontains
      rw [hheap, Except.ok.inj hj] at hinfo'
      obtain ⟨p'', q', halloc, _, hptr, _⟩ := hpool'.alloc hw hinfo' hnum
      rw [hnext] at hptr
      rw [← some.inj hptr] at halloc
      exact ⟨_, step_alloc_some halloc⟩

theorem State.Holds.write (h : s.Holds l) (k value : ℕ) :
    ∃ s', step s (.write k value) = .ok (s', none) ∧ s'.Holds l := by
  obtain ⟨pieces, hpool, hlive⟩ := h
  have hget : s.live[k]? = pieces[k]?.map (Piece.allocation l) := by rw [hlive, getElem?_map]
  cases hq : pieces[k]? with
  | none =>
    rw [hq, map_none] at hget
    refine ⟨s, ?_, ⟨pieces, hpool, hlive⟩⟩
    simp only [step, hget]
  | some q =>
    rw [hq, map_some] at hget
    obtain ⟨p', hwrite, hpool'⟩ := hpool.write (mem_of_getElem? hq) value
    refine ⟨⟨p', s.live⟩, ?_, ⟨pieces, hpool', hlive⟩⟩
    simp only [step, hget, hwrite, ok_bind]
    rfl

theorem State.Holds.step (h : s.Holds l) (op : Op) :
    ∃ s' r, Pool.step s op = .ok (s', r) ∧ s'.Holds l ∧ Answers s op s' r := by
  cases op with
  | alloc w => exact h.alloc w
  | free k => exact h.free k
  | freeAll =>
    obtain ⟨pieces, hpool, _⟩ := h
    exact ⟨_, _, rfl, ⟨[], hpool.freeAll, rfl⟩, trivial⟩
  | write k value =>
    obtain ⟨s', hs', hholds⟩ := h.write k value
    exact ⟨s', none, hs', hholds, trivial⟩

theorem Plan.regular (l : Plan) (hi : i ≤ l.last) : (l.shape i).Regular where
  chunkSize_eq := rfl
  word_le := by
    have : 2 ^ 3 ≤ 2 ^ (l.log2 + i) :=
      Nat.pow_le_pow_right (by norm_num) (by have := l.word_le; omega)
    exact this
  numChunks_pos := l.chunks_pos
  sizeBytes_eq := rfl
  sizeBytes_lt := Plan.memory_lt hi

theorem Plan.newHeap_eq (l : Plan) (hi : i ≤ l.last) :
    HeapInfo.new (wrapNat 64 (2 ^ l.log2 <<< i)) l.chunks (l.place i) =
      .ok ⟨Block.fresh (l.shape i), l.place i⟩ := by
  have hsize : 2 ^ l.log2 <<< i = 2 ^ (l.log2 + i) := by rw [Nat.shiftLeft_eq, ← pow_add]
  have hlt : 2 ^ (l.log2 + i) < 2 ^ 64 := by
    apply Nat.pow_lt_pow_right (by norm_num)
    have := l.log2_add_last_lt
    omega
  unfold HeapInfo.new
  rw [hsize, wrapNat_of_lt hlt, new_eq (l.regular hi).word_le l.chunks_pos (Plan.memory_lt hi)]
  rfl

theorem Plan.new_eq (l : Plan) (hmin : max 8 minSize = 2 ^ l.log2) :
    ∃ p, Impl.new minSize l.maxSize l.chunks l.place = .ok p ∧ p.Holds l [] := by
  have hlt := l.log2_add_last_lt
  have hlog : ilog2Floor (2 ^ l.log2) = .ok l.log2 := by
    rw [ilog2Floor_eq (Nat.pow_le_pow_right (by norm_num) (by omega)), clog_pow 2 _ (by norm_num)]
  have hlast : ilog2Floor (l.maxSize >>> l.log2) = .ok l.last := by
    have hle : l.maxSize / 2 ^ l.log2 ≤ 2 ^ 63 :=
      (Nat.div_le_self _ _).trans (l.reaches.trans (Nat.pow_le_pow_right (by norm_num) (by omega)))
    rw [Nat.shiftRight_eq_div_pow, ilog2Floor_eq hle, l.last_eq]
  have hheaps := mapM_eq_ok (range (1 + l.last))
    (f := fun i => HeapInfo.new (wrapNat 64 (2 ^ l.log2 <<< i)) l.chunks (l.place i))
    (g := fun i => ⟨fresh (l.shape i), l.place i⟩)
    fun i hi => l.newHeap_eq (by have := mem_range.mp hi; omega)
  refine ⟨⟨2 ^ l.log2, l.log2, l.maxSize, l.chunks, (range (1 + l.last)).map fun i =>
    ⟨fresh (l.shape i), l.place i⟩⟩, ?_, rfl, rfl, rfl, ?_, ?_, by simp⟩
  · unfold Impl.new
    simp only [hmin, hlog, ok_bind, hlast, hheaps]
    rfl
  · simp only [length_map, length_range]
    omega
  · intro i info hinfo
    rw [getElem?_map] at hinfo
    obtain ⟨j, hj, rfl⟩ := map_eq_some_iff.mp hinfo
    obtain ⟨hlt, hget⟩ := List.getElem?_eq_some_iff.mp hj
    rw [length_range] at hlt
    rw [getElem_range] at hget
    subst hget
    exact ⟨rfl, rfl, holds_fresh (l.regular (by omega))⟩

theorem Sizes.exists_plan {place : ℕ → ℕ} (h : Sizes minSize maxSize chunksPerSize)
    (hchunks : 1 ≤ chunksPerSize) (hplace : Apart minSize maxSize chunksPerSize place) :
    ∃ l : Plan, max 8 minSize = 2 ^ l.log2 ∧ l.maxSize = maxSize ∧ l.chunks = chunksPerSize ∧
      l.place = place := by
  obtain ⟨k, hk⟩ := h.power
  have htable := h.table
  have hmemory := h.memory
  unfold Apart at hplace
  rw [hk] at htable hmemory hplace
  refine ⟨⟨k, _, chunksPerSize, maxSize, place, ?_, hchunks, rfl, ?_, ?_, ?_⟩, hk, rfl, rfl, rfl⟩
  · by_contra hlt
    have : 2 ^ k < 2 ^ 3 := Nat.pow_lt_pow_right (by norm_num) (by omega)
    omega
  · rw [pow_add]
    exact reaches_of_table htable (by positivity)
  · rw [pow_add]
    exact hmemory
  · intro i j hij hj
    rw [pow_add, pow_add]
    exact hplace i j hij hj

/-- With the right numbers, for every sequence of operations: live allocations are disjoint and
inside the memory of their heaps, no operation leaves the table of heaps, requests are refused by
full heaps only, and what is freed is handed out again. -/
theorem pool_serves (minSize maxSize chunksPerSize : ℕ) (place : ℕ → ℕ)
    (hsizes : Sizes minSize maxSize chunksPerSize) (hchunks : 1 ≤ chunksPerSize)
    (hplace : Apart minSize maxSize chunksPerSize place) (ops : List Op) :
    ∃ p, Impl.new minSize maxSize chunksPerSize place = .ok p ∧
      ∃ s, (run step ⟨p, []⟩ ops).2 = .ok s ∧ Sound s ∧
        ∀ op, ∃ s' r, step s op = .ok (s', r) ∧ Answers s op s' r := by
  obtain ⟨l, hmin, rfl, rfl, rfl⟩ := hsizes.exists_plan hchunks hplace
  obtain ⟨p, hnew, hpool⟩ := l.new_eq hmin
  have hall : Meets step (fun _ _ => True) ⟨p, []⟩ ops := meets_of_forall ops _ fun _ _ _ => trivial
  have hkeeps : ∀ s op, State.Holds l s → True →
      ∃ s' r, step s op = .ok (s', r) ∧ State.Holds l s' := by
    intro s op h _
    obtain ⟨s', r, hstep, hs', _⟩ := h.step op
    exact ⟨s', r, hstep, hs'⟩
  obtain ⟨s, hs, hholds⟩ := run_ok_of_meets hkeeps ops ⟨[], hpool, rfl⟩ hall
  refine ⟨p, hnew, s, hs, hholds.sound, fun op => ?_⟩
  obtain ⟨s', r, hstep, _, hanswers⟩ := hholds.step op
  exact ⟨s', r, hstep, hanswers⟩

/-- Two heaps of two chunks. -/
theorem pool_serves_two_heaps : ∃ p, Impl.new 8 16 2 (fun i => 64 * (i + 1)) = .ok p ∧
      ∃ s, (run step ⟨p, []⟩ [.alloc 5, .alloc 9, .free 1, .alloc 8]).2 = .ok s ∧ Sound s := by
  have hclog : clog 2 (16 / max 8 8) = 1 := by decide
  have hsizes : Sizes 8 16 2 := ⟨⟨3, rfl⟩, .inl rfl, by rw [hclog]; norm_num⟩
  have hplace : Apart 8 16 2 (fun i => 64 * (i + 1)) := by
    intro i j hij hj
    obtain ⟨rfl, rfl⟩ : i = 0 ∧ j = 1 := by omega
    left
    norm_num
  obtain ⟨p, hp, s, hs, hsound, _⟩ :=
    pool_serves 8 16 2 _ hsizes (by norm_num) hplace [.alloc 5, .alloc 9, .free 1, .alloc 8]
  exact ⟨p, hp, s, hs, hsound⟩

/-- The largest size is above the last heap's: the index of its heap is outside the table. -/
theorem largest_size_has_no_heap : ∃ p, Impl.new 8 9 1 (fun i => 64 * (i + 1)) = .ok p ∧
      step ⟨p, []⟩ (.alloc 9) = .error .outOfBounds := by
  exact ⟨_, rfl, rfl⟩

/-- Chunks whose size is no power of two: an index is read off a pointer wrongly, and after one
`free` a chunk is handed out twice. -/
theorem uneven_chunk_is_handed_out_twice : ∃ p, Impl.new 12 12 2 (fun i => 64 * (i + 1)) = .ok p ∧
      (run step ⟨p, []⟩ [.alloc 12, .free 0, .alloc 12, .alloc 12]).1 =
        [some 64, none, some 64, some 64] := by
  exact ⟨_, rfl, by decide⟩

end AndroidEmu.Base.Pool
