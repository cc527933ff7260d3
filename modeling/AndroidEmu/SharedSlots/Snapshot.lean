import AndroidEmu.CS.ByteStream
import AndroidEmu.SharedSlots.Contexts

/-!
# Snapshots of the shared slots

The test that should see that the block of a loaded address is not found looks at the address of the
stream instead, so a stream with an address in no block is rejected only by accident: when an
address is zero, or when two of its addresses come out the same.
-/

namespace AndroidEmu.SharedSlots

open CS Math List Function OrderedMap

/-! ### Blocks -/

/-- What the rest of the program answers while blocks are loaded: the start of the area, and
whether a block is mapped at an address. -/
structure LoadHost where
  physAddrStart : ℕ
  mapped : ℕ → Bool

/-- `allocateAddressSpaceBlockFixed`, which returns the address also when it is taken. -/
def allocateAddressSpaceBlockFixed (gpa : ℕ) (host : LoadHost) : ℕ :=
  wrapNat 64 (host.physAddrStart + subNat 64 gpa host.physAddrStart)

/-- Write a free subblock or read it. -/
def putSubblock (r : ℕ × ℕ) : Bytes := putBe 4 r.1 ++ putBe 4 r.2

/-- `read` of a number of bytes, which may be too many. -/
def readBytes (n : ℕ) (stream : Bytes) : Option (Bytes × Bytes) :=
  if stream.length < n then none else some (stream.take n, stream.drop n)

def loadSubblocks : ℕ → FreeSubblocks → Bytes → Checked (FreeSubblocks × Bytes)
  | 0, fsb, stream => .ok (fsb, stream)
  | n + 1, fsb, stream => do
    let (off, stream) := getBe 4 stream
    let (sz, stream) := getBe 4 stream
    let fsb ← insertOrDie fsb off sz
    loadSubblocks n fsb stream

namespace MemBlock

def contents (b : MemBlock) : Bytes := (List.range b.bitsSize).map b.bits

def save (b : MemBlock) : Bytes :=
  putBe 8 b.physBase ++ (putBe 4 b.bitsSize ++ (b.contents ++
    (putBe 4 b.freeSubblocks.length ++ b.freeSubblocks.flatMap putSubblock)))

/-- The part of `MemBlock::load` after the region was asked for. -/
def finishLoad (host : LoadHost) (physBase physBaseLoaded bitsSize : ℕ) (bits stream : Bytes) :
    Checked (Option (MemBlock × Bytes)) :=
  if physBase = 0 then .ok none
  else if host.mapped physBase = false then .ok none
  else do
    let (freeSubblocksSize, stream) := getBe 4 stream
    let (freeSubblocks, stream) ← loadSubblocks freeSubblocksSize [] stream
    return some (
      ⟨physBase, physBaseLoaded, fun i => (bits[i]?).getD 0, bitsSize, freeSubblocks⟩, stream)

/-- The part of `MemBlock::load` that reads the buffer. -/
def loadBits (host : LoadHost) (physBaseLoaded bitsSize : ℕ) (stream : Bytes) :
    Checked (Option (MemBlock × Bytes)) :=
  match readBytes bitsSize stream with
  | none => .ok none
  | some (bits, stream) =>
    finishLoad host (allocateAddressSpaceBlockFixed physBaseLoaded host) physBaseLoaded bitsSize
      bits stream

def load (host : LoadHost) (stream : Bytes) : Checked (Option (MemBlock × Bytes)) :=
  loadBits host (getBe 8 stream).1 (getBe 4 (getBe 8 stream).2).1 (getBe 4 (getBe 8 stream).2).2

end MemBlock

/-! ### Contexts -/

/-- The address after loading, and the block or the null pointer. -/
def translatePhysAddr (blocks : Blocks) (p : ℕ) : ℕ × ℕ :=
  match blocks.find? fun x => x.2.block.physBaseLoaded ≤ p ∧
      p < wrapNat 64 (x.2.block.physBaseLoaded + x.2.block.bitsSize) with
  | some x => (wrapNat 64 (x.2.block.physBase + (p - x.2.block.physBaseLoaded)), x.2.id)
  | none => (0, 0)

def putAllocation (e : ℕ × ℕ) : Bytes := putBe 8 e.1 ++ putBe 4 e.2

def getAllocation (stream : Bytes) : (ℕ × ℕ) × Bytes :=
  let phys := getBe 8 stream
  let size := getBe 4 phys.2
  ((phys.1, size.1), size.2)

/-- The body of the loop of a context's `load`. The test is on the address that was read. -/
def recordAllocation (blocks : Blocks) (allocations : List Allocation) (phys size : ℕ) :
    Checked (List Allocation) :=
  let r := translatePhysAddr blocks phys
  if phys ≠ 0 then
    if allocations.any (·.phys = r.1) then .error .exit
    else .ok (⟨r.1, size, r.2⟩ :: allocations)
  else .error .exit

def loadAllocations (blocks : Blocks) :
    ℕ → List Allocation → Bytes → Checked (List Allocation × Bytes)
  | 0, allocations, stream => .ok (allocations, stream)
  | n + 1, allocations, stream => do
    let e := getAllocation stream
    let allocations ← recordAllocation blocks allocations e.1.1 e.1.2
    loadAllocations blocks n allocations e.2

def loadBlocks (host : LoadHost) : ℕ → State → Bytes → Checked (Bool × State)
  | 0, s, _ => .ok (true, s)
  | n + 1, s, stream => do
    match ← MemBlock.load host stream with
    | none => return (false, s)
    | some (block, stream) =>
      match OrderedMap.insert s.blocks block.physBase ⟨s.nextId, block⟩ with
      | none => .error .exit
      | some blocks => loadBlocks host n { s with blocks := blocks, nextId := s.nextId + 1 } stream

namespace State

def globalStateSave (s : State) : Bytes :=
  putBe 4 s.blocks.length ++ s.blocks.flatMap fun x => x.2.block.save

def globalStateLoad (s : State) (host : LoadHost) (stream : Bytes) : Checked (Bool × State) :=
  let sz := getBe 4 stream
  loadBlocks host sz.1 s sz.2

def save (s : State) (c : ℕ) : Bytes :=
  putBe 4 (s.allocations c).length ++
    (s.allocations c).flatMap fun a => putAllocation (a.phys, a.size)

def load (s : State) (c : ℕ) (stream : Bytes) : Checked State := do
  let s ← s.clear c
  let sz := getBe 4 stream
  let (allocations, _) ← loadAllocations s.blocks sz.1 [] sz.2
  return { s with allocations := Function.update s.allocations c allocations }

def loadAll (s : State) (streams : ℕ → Bytes) (cs : List ℕ) : Checked State :=
  cs.foldlM (fun s c => s.load c (streams c)) s

/-- What an allocation is, apart from addresses of objects: its size, where it lies in its
block, and the free subblocks and the contents of the block. -/
def view (blocks : Blocks) (a : Allocation) : Option (ℕ × ℕ × FreeSubblocks × Bytes) :=
  (blocks.find? (·.2.id = a.owner)).map fun x =>
    (a.size, a.phys - x.1, x.2.block.freeSubblocks, x.2.block.contents)

/-- The context has the allocations it had, each in a block. -/
def Restored (s s' : State) (c : ℕ) : Prop :=
  ((s'.allocations c).map (view s'.blocks)).Perm ((s.allocations c).map (view s.blocks)) ∧
    ∀ a ∈ s'.allocations c, (view s'.blocks a).isSome = true

end State

/-! ### Loading what was saved -/

variable {gpa base loaded size n k c : ℕ} {stream s1 s2 bits s3 : Bytes} {r e : ℕ × ℕ}

section Blocks

variable {b : MemBlock} {ps : List Piece} {host : LoadHost}

theorem loadSubblocks_eq (pre fsb : FreeSubblocks) (hsorted : OrderedMap.Sorted (pre ++ fsb))
    (hlt : ∀ r ∈ fsb, r.1 < 2 ^ 32 ∧ r.2 < 2 ^ 32) (rest : Bytes) :
    loadSubblocks fsb.length pre (fsb.flatMap putSubblock ++ rest) = .ok (pre ++ fsb, rest) := by
  induction fsb generalizing pre with
  | nil => simp [loadSubblocks]
  | cons r fsb ih =>
    obtain ⟨h1, h2⟩ := hlt r mem_cons_self
    have hsplit : Split pre r.1 [] :=
      ⟨fun p hp => (pairwise_append.mp hsorted).2.2 p hp r mem_cons_self, by simp⟩
    have hinsert := insertOrDie_of_split hsplit r.2
    rw [append_nil] at hinsert
    have hrest := ih (pre ++ [r]) (by simpa using hsorted) fun q hq => hlt q (mem_cons_of_mem r hq)
    simp only [length_cons, flatMap_cons, putSubblock, append_assoc, loadSubblocks,
      getBe_putBe 4 (lt_pow_bytes (show r.1 < 2 ^ (8 * 4) by omega)),
      getBe_putBe 4 (lt_pow_bytes (show r.2 < 2 ^ (8 * 4) by omega)), hinsert, Checked.ok_bind]
    simpa [putSubblock] using hrest

def MemBlock.reloaded (b : MemBlock) : MemBlock :=
  { b with physBaseLoaded := b.physBase, bits := fun i => (b.contents[i]?).getD 0 }

theorem MemBlock.contents_reloaded (b : MemBlock) : b.reloaded.contents = b.contents := by
  unfold contents reloaded
  apply map_congr_left
  intro i hi
  have : i < b.bitsSize := mem_range.mp hi
  simp [contents, this]

theorem MemBlock.Holds.lt_of_mem (h : b.Holds ps) (hr : r ∈ b.freeSubblocks) :
    r.1 < 2 ^ 32 ∧ r.2 < 2 ^ 32 := by
  rw [h.free] at hr
  obtain ⟨p, hp, -, rfl⟩ := Piece.mem_freeRanges.mp hr
  have := h.bounds hp
  have := h.placed.size_lt
  exact ⟨by rw [Piece.range]; omega, by rw [Piece.range]; omega⟩

theorem MemBlock.Holds.sorted (h : b.Holds ps) : OrderedMap.Sorted b.freeSubblocks := by
  rw [h.free, Piece.freeRanges, Sorted, pairwise_map]
  apply (h.tiles.pairwise.filter _).imp_of_mem
  intro p q hp _ hle
  have := (h.bounds (mem_filter.mp hp).1).1
  simp only [Piece.range]
  omega

theorem MemBlock.Holds.length_lt (h : b.Holds ps) : b.freeSubblocks.length < 2 ^ 32 := by
  have hlt := h.placed.size_lt
  have hle : (Piece.freeRanges ps).length ≤ ps.length := by
    rw [Piece.freeRanges, length_map]
    exact length_filter_le _ _
  have := h.tiles.length_le
  rw [h.free]
  omega

theorem allocateAddressSpaceBlockFixed_eq (h : gpa < 2 ^ 64) (host : LoadHost) :
    allocateAddressSpaceBlockFixed gpa host = gpa := by
  unfold allocateAddressSpaceBlockFixed wrapNat subNat
  omega

theorem MemBlock.finishLoad_eq {fsb : FreeSubblocks} (hne : ¬ base = 0)
    (hmapped : host.mapped base = true) (hn : getBe 4 stream = (n, s1))
    (hfsb : loadSubblocks n [] s1 = .ok (fsb, s2)) : finishLoad host base loaded size bits stream =
      .ok (some (⟨base, loaded, fun i => (bits[i]?).getD 0, size, fsb⟩, s2)) := by
  rw [finishLoad, if_neg hne, if_neg (by simp [hmapped]), hn]
  dsimp only
  rw [hfsb]
  rfl

theorem MemBlock.load_eq (hbase : getBe 8 stream = (base, s1)) (hsize : getBe 4 s1 = (size, s2))
    (hbits : readBytes size s2 = some (bits, s3)) (hlt : base < 2 ^ 64) :
    MemBlock.load host stream = finishLoad host base base size bits s3 := by
  rw [load, hbase, hsize, loadBits, hbits]
  rw [allocateAddressSpaceBlockFixed_eq hlt]

theorem MemBlock.load_save (h : b.Holds ps) (hmapped : host.mapped b.physBase = true)
    (rest : Bytes) : MemBlock.load host (b.save ++ rest) = .ok (some (b.reloaded, rest)) := by
  have hplaced := h.placed
  have hpos := hplaced.base_pos
  have hfits := hplaced.fits
  have hsize := hplaced.size_lt
  have hcount := h.length_lt
  have hlen : b.contents.length = b.bitsSize := by simp [contents]
  have hread : ∀ tail, readBytes b.bitsSize (b.contents ++ tail) = some (b.contents, tail) := by
    intro tail
    rw [readBytes, if_neg (by simp [hlen]), ← hlen, take_left, drop_left]
  have hfsb := loadSubblocks_eq [] b.freeSubblocks (by simpa using h.sorted)
    (fun r hr => h.lt_of_mem hr) rest
  unfold save
  simp only [append_assoc]
  rw [load_eq (getBe_putBe 8 (lt_pow_bytes (by omega)) _)
    (getBe_putBe 4 (lt_pow_bytes (by omega)) _)
    (hread _) (by omega)]
  exact finishLoad_eq (by omega) hmapped (getBe_putBe 4 (lt_pow_bytes (by omega)) _) hfsb

/-- The blocks after loading: new objects, numbered from `k` on. -/
def reload : ℕ → Blocks → Blocks
  | _, [] => []
  | k, (key, node) :: blocks => (key, ⟨k, node.block.reloaded⟩) :: reload (k + 1) blocks

theorem reload_append (k : ℕ) (xs ys : Blocks) :
    reload k (xs ++ ys) = reload k xs ++ reload (k + xs.length) ys := by
  induction xs generalizing k with
  | nil => rfl
  | cons x xs ih =>
    rw [cons_append, reload, ih, reload, cons_append, length_cons, Nat.add_assoc, Nat.add_comm 1]

theorem exists_of_mem_reload {blocks : Blocks} {x : ℕ × Node} (hx : x ∈ reload k blocks) :
    k ≤ x.2.id ∧ x.2.id < k + blocks.length ∧
      ∃ y ∈ blocks, x.1 = y.1 ∧ x.2.block = y.2.block.reloaded := by
  induction blocks generalizing k with
  | nil => exact absurd hx not_mem_nil
  | cons y blocks ih =>
    rcases mem_cons.mp hx with rfl | hx
    · exact ⟨le_rfl, Nat.lt_add_of_pos_right (by simp), y, mem_cons_self, rfl, rfl⟩
    · obtain ⟨hle, hlt, z, hz, heq⟩ := ih hx
      rw [length_cons]
      exact ⟨by omega, by omega, z, mem_cons_of_mem y hz, heq⟩

theorem loadBlocks_eq {pieces : ℕ → List Piece} (pre blocks : Blocks) (k : ℕ)
    (allocations : ℕ → List Allocation) (hlaid : Laid blocks pieces)
    (hpre : ∀ p ∈ pre, ∀ x ∈ blocks, p.1 < x.1) (hmapped : ∀ x ∈ blocks, host.mapped x.1 = true) :
    loadBlocks host blocks.length ⟨pre, k, allocations⟩ (blocks.flatMap fun x => x.2.block.save) =
      .ok (true, ⟨pre ++ reload k blocks, k + blocks.length, allocations⟩) := by
  induction blocks generalizing pre k with
  | nil => simp [loadBlocks, reload]
  | cons x blocks ih =>
    have hkey := hlaid.key x mem_cons_self
    have hload := MemBlock.load_save (hlaid.holds x mem_cons_self)
      (hkey ▸ hmapped x mem_cons_self) (blocks.flatMap fun x => x.2.block.save)
    have hsplit : Split pre x.1 [] :=
      ⟨fun p hp => hpre p hp x mem_cons_self, by simp⟩
    have hinsert : insert pre x.2.block.reloaded.physBase
        (⟨k, x.2.block.reloaded⟩ : Node) = some (pre ++ [(x.1, ⟨k, x.2.block.reloaded⟩)]) := by
      have := insert_of_split hsplit (⟨k, x.2.block.reloaded⟩ : Node)
      rw [append_nil, hkey] at this
      rw [hkey]
      exact this
    have hsub := hlaid.sublist (sublist_cons_self x blocks)
    have hnext := ih (pre ++ [(x.1, ⟨k, x.2.block.reloaded⟩)]) (k + 1) hsub ?_
      fun y hy => hmapped y (mem_cons_of_mem x hy)
    · rw [length_cons, flatMap_cons, loadBlocks, hload]
      simp only [Checked.ok_bind]
      rw [hinsert]
      simp only
      rw [hnext, reload, append_assoc, singleton_append, Nat.add_assoc, Nat.add_comm 1]
    · intro p hp y hy
      rcases mem_append.mp hp with hp | hp
      · exact hpre p hp y (mem_cons_of_mem x hy)
      · obtain rfl := mem_singleton.mp hp
        exact (pairwise_cons.mp hlaid.sorted).1 y hy

end Blocks

/-! ### Context streams -/

section Streams

variable {blocks : Blocks}

/-- What is recorded for an entry of a stream. -/
def recorded (blocks : Blocks) (e : ℕ × ℕ) : Allocation :=
  ⟨(translatePhysAddr blocks e.1).1, e.2, (translatePhysAddr blocks e.1).2⟩

/-- The entries that a loop of `n` reads from a stream. -/
def named (n : ℕ) (stream : Bytes) : List (ℕ × ℕ) := (getMany getAllocation n stream).1

/-- The entries can be recorded: no address is zero, and those that come out are different. -/
def Accepts (blocks : Blocks) (entries : List (ℕ × ℕ)) : Prop :=
  (∀ e ∈ entries, e.1 ≠ 0) ∧ (entries.map fun e => (recorded blocks e).phys).Nodup

instance (blocks : Blocks) (entries : List (ℕ × ℕ)) : Decidable (Accepts blocks entries) :=
  inferInstanceAs (Decidable (_ ∧ _))

theorem named_succ (n : ℕ) (stream : Bytes) :
    named (n + 1) stream = (getAllocation stream).1 :: named n (getAllocation stream).2 := rfl

theorem recordAllocation_of (acc : List Allocation) (e : ℕ × ℕ) (h : e.1 ≠ 0)
    (hacc : ∀ a ∈ acc, a.phys ≠ (recorded blocks e).phys) :
    recordAllocation blocks acc e.1 e.2 = .ok (recorded blocks e :: acc) := by
  unfold recordAllocation
  rw [if_pos h, if_neg (by simpa [recorded] using hacc)]
  rfl

theorem recordAllocation_of_not (acc : List Allocation) (e : ℕ × ℕ)
    (h : ¬ (e.1 ≠ 0 ∧ ∀ a ∈ acc, a.phys ≠ (recorded blocks e).phys)) :
    recordAllocation blocks acc e.1 e.2 = .error .exit := by
  unfold recordAllocation
  by_cases hzero : e.1 ≠ 0
  · have hany : acc.any (·.phys = (translatePhysAddr blocks e.1).1) = true := by
      by_contra hnot
      exact h ⟨hzero, by simpa [recorded] using hnot⟩
    rw [if_pos hzero, if_pos hany]
  · rw [if_neg hzero]

/-- The stream can be loaded after the allocations that are there. -/
def AcceptsAfter (blocks : Blocks) (acc : List Allocation) (entries : List (ℕ × ℕ)) : Prop :=
  Accepts blocks entries ∧ ∀ e ∈ entries, ∀ a ∈ acc, a.phys ≠ (recorded blocks e).phys

theorem acceptsAfter_cons {acc : List Allocation} {es : List (ℕ × ℕ)} :
    AcceptsAfter blocks acc (e :: es) ↔ (e.1 ≠ 0 ∧ ∀ a ∈ acc, a.phys ≠ (recorded blocks e).phys) ∧
        AcceptsAfter blocks (recorded blocks e :: acc) es := by
  unfold AcceptsAfter Accepts
  rw [map_cons, nodup_cons]
  simp only [forall_mem_cons, mem_map, not_exists, not_and]
  constructor
  · rintro ⟨⟨⟨hzero, hrest⟩, hnot, hnodup⟩, hacc, haccs⟩
    exact ⟨⟨hzero, hacc⟩, ⟨hrest, hnodup⟩, fun e' he' => ⟨fun heq => hnot e' he' heq.symm,
      haccs e' he'⟩⟩
  · rintro ⟨⟨hzero, hacc⟩, ⟨hrest, hnodup⟩, hboth⟩
    exact ⟨⟨⟨hzero, hrest⟩, fun e' he' heq => (hboth e' he').1 heq.symm, hnodup⟩, hacc,
      fun e' he' => (hboth e' he').2⟩

theorem loadAllocations_eq (n : ℕ) (acc : List Allocation) (stream : Bytes) :
    (AcceptsAfter blocks acc (named n stream) → ∃ rest, loadAllocations blocks n acc stream =
      .ok (((named n stream).map (recorded blocks)).reverse ++ acc, rest)) ∧
    (¬ AcceptsAfter blocks acc (named n stream) →
      loadAllocations blocks n acc stream = .error .exit) := by
  induction n generalizing acc stream with
  | zero =>
    refine ⟨fun _ => ⟨stream, rfl⟩, fun h => absurd ?_ h⟩
    simp [AcceptsAfter, Accepts, named, getMany]
  | succ n ih =>
    obtain ⟨hyes, hno⟩ :=
      ih (recorded blocks (getAllocation stream).1 :: acc) (getAllocation stream).2
    rw [named_succ, acceptsAfter_cons, loadAllocations]
    by_cases hfirst : (getAllocation stream).1.1 ≠ 0 ∧
        ∀ a ∈ acc, a.phys ≠ (recorded blocks (getAllocation stream).1).phys
    · rw [recordAllocation_of acc _ hfirst.1 hfirst.2, Checked.ok_bind]
      constructor
      · rintro ⟨-, hrest⟩
        obtain ⟨rest, heq⟩ := hyes hrest
        exact ⟨rest, by rw [heq]; simp⟩
      · exact fun h => hno fun hrest => h ⟨hfirst, hrest⟩
    · rw [recordAllocation_of_not acc _ hfirst]
      exact ⟨fun h => absurd h.1 hfirst, fun _ => rfl⟩

theorem State.load_eq {s : State} (hc : s.allocations c = []) (stream : Bytes) :
    s.load c stream = if Accepts s.blocks (named (getBe 4 stream).1 (getBe 4 stream).2) then
        .ok ⟨s.blocks, s.nextId, Function.update s.allocations c
          ((named (getBe 4 stream).1 (getBe 4 stream).2).map (recorded s.blocks)).reverse⟩
      else .error .exit := by
  have hclear : s.clear c = .ok s := by
    rw [clear, hc]
    change Except.ok (⟨s.blocks, s.nextId, update s.allocations c []⟩ : State) = _
    rw [← hc, update_eq_self]
  obtain ⟨hyes, hno⟩ :=
    @loadAllocations_eq s.blocks (getBe 4 stream).1 [] (getBe 4 stream).2
  rw [load, hclear, Checked.ok_bind]
  dsimp only
  split_ifs with haccepts
  · obtain ⟨rest, heq⟩ := hyes ⟨haccepts, by simp⟩
    rw [heq, append_nil]
    rfl
  · rw [hno fun h => haccepts h.1]
    rfl

theorem getAllocation_put (h1 : e.1 < 2 ^ 64) (h2 : e.2 < 2 ^ 32) (rest : Bytes) :
    getAllocation (putAllocation e ++ rest) = (e, rest) := by
  have hphys := getBe_putBe 8 (lt_pow_bytes (show e.1 < 2 ^ (8 * 8) by omega))
    (putBe 4 e.2 ++ rest)
  have hsize := getBe_putBe 4 (lt_pow_bytes (show e.2 < 2 ^ (8 * 4) by omega)) rest
  rw [getAllocation, putAllocation, append_assoc, hphys]
  rw [hsize]

end Streams

/-! ### Round trips -/

namespace State

variable {s t : State} {pieces : ℕ → List Piece} {c : ℕ} {a : Allocation}

theorem find_middle {α : Type} {p : α → Bool} {xs ys : List α} {x : α} (hxs : ∀ y ∈ xs, p y = false)
    (hx : p x = true) : (xs ++ x :: ys).find? p = some x := by
  rw [find?_append, find?_eq_none.mpr (by simpa using hxs), Option.none_or, find?_cons_of_pos hx]

theorem Inv.recorded_reload (h : s.Inv pieces) (ha : a ∈ s.allocations c) :
    (recorded (reload 1 s.blocks) (a.phys, a.size)).phys = a.phys ∧
    view (reload 1 s.blocks) (recorded (reload 1 s.blocks) (a.phys, a.size)) = view s.blocks a ∧
    (view s.blocks a).isSome = true := by
  obtain ⟨x, hx, hid, u, -, -, hphys, -, hpos, hend⟩ := (h.backed c a ha).exists_piece h.laid
  obtain ⟨xs, ys, hblocks⟩ := append_of_mem hx
  have hlaid := h.laid
  rw [hblocks] at hlaid
  have hkey : x.1 = x.2.block.physBase := hlaid.key x (by simp)
  have hfits := (hlaid.holds x (by simp)).placed.fits
  have hreload : reload 1 s.blocks = reload 1 xs ++
      (x.1, ⟨1 + xs.length, x.2.block.reloaded⟩) :: reload (1 + xs.length + 1) ys := by
    rw [hblocks, reload_append]
    rfl
  -- blocks in front end before the address
  have hfront : ∀ y ∈ xs, y.1 + y.2.block.bitsSize ≤ x.1 :=
    fun y hy => (pairwise_append.mp hlaid.apart).2.2 y hy x mem_cons_self
  have htranslate : translatePhysAddr (reload 1 s.blocks) a.phys = (a.phys, 1 + xs.length) := by
    unfold translatePhysAddr
    rw [hreload, find_middle]
    · simp only [MemBlock.reloaded]
      rw [← hkey, Nat.add_sub_cancel' (by omega), wrapNat_of_lt (by omega)]
    · intro z hz
      obtain ⟨-, -, y, hy, -, hblock⟩ := exists_of_mem_reload hz
      have hykey : y.1 = y.2.block.physBase := hlaid.key y (by simp [hy])
      have hyfits := (hlaid.holds y (by simp [hy])).placed.fits
      have := hfront y hy
      apply decide_eq_false
      simp only [hblock, MemBlock.reloaded, wrapNat_of_lt hyfits]
      omega
    · apply decide_eq_true
      simp only [MemBlock.reloaded, wrapNat_of_lt hfits]
      omega
  have hview : view (reload 1 s.blocks) ⟨a.phys, a.size, 1 + xs.length⟩ =
      some (a.size, a.phys - x.1, x.2.block.freeSubblocks, x.2.block.contents) := by
    unfold view
    rw [hreload, find_middle]
    · simp only [Option.map_some, MemBlock.contents_reloaded]
      rfl
    · intro z hz
      have := (exists_of_mem_reload hz).2.1
      simp only [decide_eq_false_iff_not]
      omega
    · simp
  have hview' : view s.blocks a =
      some (a.size, a.phys - x.1, x.2.block.freeSubblocks, x.2.block.contents) := by
    unfold view
    rw [hblocks, find_middle]
    · rfl
    · intro y hy
      simpa [← hid] using hlaid.ne_id (.inl hy)
    · simpa using hid
  rw [recorded, htranslate, hview, hview']
  exact ⟨rfl, rfl, rfl⟩

theorem Inv.load_save (h : s.Inv pieces) (hcount : (s.allocations c).length < 2 ^ 32)
    (hblocks : t.blocks = reload 1 s.blocks) (hempty : t.allocations c = []) :
    ∃ l, t.load c (s.save c) = .ok ⟨t.blocks, t.nextId, Function.update t.allocations c l⟩ ∧
      (l.map (view t.blocks)).Perm ((s.allocations c).map (view s.blocks)) ∧
      ∀ a ∈ l, (view t.blocks a).isSome = true := by
  have hbounds : ∀ a ∈ s.allocations c, 0 < a.phys ∧ a.phys < 2 ^ 64 ∧ a.size < 2 ^ 32 := by
    intro a ha
    obtain ⟨x, hx, -, u, -, -, hphys, hsize, hpos, hend⟩ := (h.backed c a ha).exists_piece h.laid
    have hkey := h.laid.key x hx
    obtain ⟨hbase, -, hlt, hfits⟩ := (h.laid.holds x hx).placed
    exact ⟨by omega, by omega, by omega⟩
  have hnamed : named (getBe 4 (s.save c)).1 (getBe 4 (s.save c)).2 =
      (s.allocations c).map fun a => (a.phys, a.size) := by
    have hmany := @getMany_flatMap _ getAllocation putAllocation
      ((s.allocations c).map fun a => (a.phys, a.size)) ?_ []
    · rw [save, getBe_putBe 4 (lt_pow_bytes (by omega))]
      rw [append_nil, length_map, flatMap_map] at hmany
      rw [named, hmany]
    · intro e he rest
      obtain ⟨a, ha, rfl⟩ := mem_map.mp he
      exact getAllocation_put (hbounds a ha).2.1 (hbounds a ha).2.2 rest
  have hphys : ∀ a ∈ s.allocations c,
      (recorded t.blocks (a.phys, a.size)).phys = a.phys ∧
      view t.blocks (recorded t.blocks (a.phys, a.size)) = view s.blocks a ∧
      (view s.blocks a).isSome = true := by
    rw [hblocks]
    exact fun a ha => h.recorded_reload ha
  have haccepts : Accepts t.blocks ((s.allocations c).map fun a => (a.phys, a.size)) := by
    constructor
    · intro e he
      obtain ⟨a, ha, rfl⟩ := mem_map.mp he
      exact (hbounds a ha).1.ne'
    · have hsame : ((s.allocations c).map fun a => (a.phys, a.size)).map
          (fun e => (recorded t.blocks e).phys) = (s.allocations c).map Allocation.phys := by
        rw [map_map]
        exact map_congr_left fun a ha => (hphys a ha).1
      rw [hsame, Nodup, pairwise_map]
      exact h.nodup c
  rw [load_eq hempty, hnamed, if_pos haccepts]
  refine ⟨_, rfl, ?_, ?_⟩
  · rw [map_reverse, map_map, map_map]
    refine (reverse_perm _).trans (.of_eq (map_congr_left fun a ha => ?_))
    exact (hphys a ha).2.1
  · intro a' ha'
    obtain ⟨e, he, rfl⟩ := mem_map.mp (mem_reverse.mp ha')
    obtain ⟨a, ha, rfl⟩ := mem_map.mp he
    rw [(hphys a ha).2.1]
    exact (hphys a ha).2.2

theorem Inv.loadAll_save (h : s.Inv pieces) (cs : List ℕ) (hcs : cs.Nodup)
    (hcount : ∀ c ∈ cs, (s.allocations c).length < 2 ^ 32) (hblocks : t.blocks = reload 1 s.blocks)
    (hempty : ∀ c ∈ cs, t.allocations c = []) :
    ∃ t', t.loadAll s.save cs = .ok t' ∧ t'.blocks = t.blocks ∧
      (∀ c, c ∉ cs → t'.allocations c = t.allocations c) ∧ ∀ c ∈ cs, Restored s t' c := by
  induction cs generalizing t with
  | nil => exact ⟨t, rfl, rfl, fun _ _ => rfl, by simp⟩
  | cons c cs ih =>
    obtain ⟨hc, hcs⟩ := nodup_cons.mp hcs
    obtain ⟨hfirst, hcount⟩ := forall_mem_cons.mp hcount
    obtain ⟨l, hload, hperm, hsome⟩ :=
      h.load_save hfirst hblocks (hempty c mem_cons_self)
    have hempty' : ∀ d ∈ cs, update t.allocations c l d = [] := by
      intro d hd
      have hne : d ≠ c := by
        rintro rfl
        exact hc hd
      rw [update_of_ne hne]
      exact hempty d (mem_cons_of_mem c hd)
    obtain ⟨t', hall, hblocks', hkeep, hrestored⟩ :=
      @ih ⟨t.blocks, t.nextId, update t.allocations c l⟩ hcs hcount hblocks hempty'
    refine ⟨t', ?_, hblocks', fun d hd => ?_, forall_mem_cons.mpr ⟨?_, hrestored⟩⟩
    · rw [loadAll, foldlM_cons, hload]
      exact hall
    · obtain ⟨hne, hd⟩ := not_or.mp (fun hor => hd (mem_cons.mpr hor))
      rw [hkeep d hd]
      exact update_of_ne hne _ _
    · have hl : t'.allocations c = l := (hkeep c hc).trans (update_self ..)
      rw [Restored, hl, hblocks']
      exact ⟨hperm, hsome⟩

/-- The counts of blocks and of allocations fit in the 32 bits they are written with, and the
blocks can be mapped again where they were. -/
def Reloadable (host : LoadHost) (cs : List ℕ) (s : State) : Prop :=
  s.blocks.length < 2 ^ 32 ∧ (∀ c ∈ cs, (s.allocations c).length < 2 ^ 32) ∧
    ∀ x ∈ s.blocks, host.mapped x.1 = true

instance (host : LoadHost) (cs : List ℕ) : DecidablePred (Reloadable host cs) :=
  fun _ => inferInstanceAs (Decidable (_ ∧ _))

/-- A snapshot of the blocks and of the contexts `cs`, loaded where there is nothing, restores
each of them. -/
def RestoredBy (host : LoadHost) (cs : List ℕ) (s : State) : Prop :=
  ∃ s1 s2, initial.globalStateLoad host s.globalStateSave = .ok (true, s1) ∧
    s1.loadAll s.save cs = .ok s2 ∧ ∀ c ∈ cs, Restored s s2 c

theorem Inv.restoredBy (h : s.Inv pieces) {host : LoadHost} {cs : List ℕ} (hcs : cs.Nodup)
    (hs : s.Reloadable host cs) : s.RestoredBy host cs := by
  obtain ⟨hlength, hcount, hmapped⟩ := hs
  have hload : State.initial.globalStateLoad host s.globalStateSave =
      .ok (true, ⟨reload 1 s.blocks, 1 + s.blocks.length, fun _ => []⟩) := by
    rw [globalStateLoad, globalStateSave,
      getBe_putBe 4 (lt_pow_bytes (show s.blocks.length < 2 ^ (8 * 4) from hlength))]
    exact loadBlocks_eq [] s.blocks 1 (fun _ => []) h.laid (by simp) hmapped
  obtain ⟨s2, hall, -, -, hrestored⟩ :=
    @Inv.loadAll_save s ⟨reload 1 s.blocks, 1 + s.blocks.length, fun _ => []⟩ pieces h cs hcs
      hcount rfl fun _ _ => rfl
  exact ⟨_, s2, hload, hall, hrestored⟩

/-- **Snapshots.** Every state reached by proper steps is restored by a snapshot, with any
number of contexts. And a context that has nothing rejects a stream exactly if it has the address
zero or two addresses that come out the same, wherever the blocks are. -/
theorem snapshot_restores (ops : List Op) (hops : Meets step Proper initial ops)
    (host : LoadHost) (cs : List ℕ) (hcs : cs.Nodup)
    (hs : (run step initial ops).2.Ensures (Reloadable host cs) fun _ => True) :
    ((run step initial ops).2.Ensures (RestoredBy host cs) fun _ => False) ∧
    ∀ (t : State) (c : ℕ) (stream : Bytes), t.allocations c = [] → (t.load c stream = .error .exit ↔
        ¬ Accepts t.blocks (named (getBe 4 stream).1 (getBe 4 stream).2)) := by
  constructor
  · have hinv : ∃ pieces, initial.Inv pieces := ⟨fun _ => [], .initial _⟩
    exact ((run_invariant step_inv ops _ hinv hops).and hs).mono
      fun _ ⟨⟨_, h⟩, hs⟩ => h.restoredBy hcs hs
  · intro t c stream hc
    rw [load_eq hc]
    split_ifs with haccepts
    · simp [haccepts]
    · simp [haccepts]

theorem snapshot_restores_example :
    ((run step initial [.ping (hostAt 0) 0 ⟨1, 5000, 0⟩, .ping (hostAt 0) 1 ⟨1, 1, 0⟩]).2.Ensures
      (RestoredBy ⟨0x800000000, fun _ => true⟩ [0, 1]) fun _ => False) ∧
    initial.load 0 (putBe 4 1 ++ (putBe 8 0 ++ putBe 4 4096)) = .error .exit := by
  have h := snapshot_restores
    [.ping (hostAt 0) 0 ⟨1, 5000, 0⟩, .ping (hostAt 0) 1 ⟨1, 1, 0⟩] (by decide +kernel)
    ⟨0x800000000, fun _ => true⟩ [0, 1] (by decide) (by decide +kernel)
  exact ⟨h.1, (h.2 initial 0 _ rfl).mpr (by decide +kernel)⟩

/-- A stream with an address in no block is accepted when there is no block at all, and the
allocation gets the null pointer. -/
theorem stray_address_is_recorded : translatePhysAddr initial.blocks 0x1000 = (0, 0) ∧
    (initial.load 0 (putBe 4 1 ++ (putBe 8 0x1000 ++ putBe 4 4096))).Ensures
      (fun t => t.allocations 0 = [⟨0, 4096, 0⟩]) (fun _ => False) := by
  decide +kernel

end State

end AndroidEmu.SharedSlots
