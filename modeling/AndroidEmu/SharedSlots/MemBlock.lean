import AndroidEmu.CS.Memory
import AndroidEmu.CS.OrderedMap
import AndroidEmu.Math.Segments

/-!
# Blocks of shared host memory

A `MemBlock` is a buffer of the host, parts of which are given to guest processes. The free
subblocks are a map from offsets to sizes. Free subblocks and allocations together tile the block,
and no two free subblocks are neighbours.
-/

namespace AndroidEmu.SharedSlots

open CS Math List OrderedMap Segments Coalesced

/-! ### The block -/

/-- From offsets to sizes. -/
abbrev FreeSubblocks := List (ℕ × ℕ)

/-- `MemBlock`, without the tables of functions. `bits` is what the buffer holds at each of
its offsets. -/
structure MemBlock where
  physBase : ℕ
  physBaseLoaded : ℕ
  bits : ℕ → UInt8
  bitsSize : ℕ
  freeSubblocks : FreeSubblocks

/-- Insertion that ends the program when the key is there. -/
def insertOrDie (fsb : FreeSubblocks) (offset size : ℕ) : Checked FreeSubblocks :=
  match OrderedMap.insert fsb offset size with
  | some fsb => .ok fsb
  | none => .error .exit

/-- The comparison with `bestSize` looks at the requested size. -/
def findFreeSubblock (fsb : FreeSubblocks) (sz : ℕ) : Option (ℕ × ℕ) :=
  (fsb.foldl (fun (best : Option (ℕ × ℕ) × ℕ) i =>
    if i.2 ≥ sz ∧ sz < best.2 then (some i, i.2) else best) (none, 2 ^ 64 - 1)).1

/-- `MemBlock::tryMergeSubblocks`. -/
def tryMergeSubblocks (fsb : FreeSubblocks) (ret lhs rhs : ℕ × ℕ) :
    Checked (FreeSubblocks × (ℕ × ℕ)) :=
  if wrapNat 32 (lhs.1 + lhs.2) = rhs.1 then do
    let subblockSize := wrapNat 32 (lhs.2 + rhs.2)
    let fsb ← insertOrDie (OrderedMap.erase (OrderedMap.erase fsb lhs.1) rhs.1) lhs.1 subblockSize
    return (fsb, (lhs.1, subblockSize))
  else return (fsb, ret)

/-- The first join of `unallocate`, with the subblock before. -/
def mergePrev (fsb : FreeSubblocks) (i : ℕ × ℕ) : Checked (FreeSubblocks × (ℕ × ℕ)) :=
  match OrderedMap.before fsb i.1 with
  | none => .ok (fsb, i)
  | some prev => tryMergeSubblocks fsb i prev i

/-- The second join, with the subblock after. -/
def mergeNext (fsb : FreeSubblocks) (i : ℕ × ℕ) : Checked (FreeSubblocks × (ℕ × ℕ)) :=
  match OrderedMap.after fsb i.1 with
  | none => .ok (fsb, i)
  | some next => tryMergeSubblocks fsb i i next

namespace MemBlock

/-- The block the constructor makes of a buffer and the address it is mapped at. -/
def create (physBase sz : ℕ) (bits : ℕ → UInt8) : MemBlock := ⟨physBase, 0, bits, sz, [(0, sz)]⟩

/-- `MemBlock::isAllFree`. -/
def isAllFree (b : MemBlock) : Bool :=
  match b.freeSubblocks with
  | [(offset, size)] => offset = 0 && size = b.bitsSize
  | _ => false

def allocate (b : MemBlock) (requestedSize : ℕ) : Checked (MemBlock × ℕ) :=
  match findFreeSubblock b.freeSubblocks requestedSize with
  | none => .ok (b, 0)
  | some (subblockOffset, subblockSize) => do
    let erased := OrderedMap.erase b.freeSubblocks subblockOffset
    let fsb ← if subblockSize > requestedSize then
        insertOrDie erased (wrapNat 32 (subblockOffset + requestedSize))
          (wrapNat 32 (subblockSize - requestedSize))
      else pure erased
    return ({ b with freeSubblocks := fsb }, wrapNat 64 (b.physBase + subblockOffset))

def unallocate (b : MemBlock) (phys subblockSize : ℕ) : Checked MemBlock :=
  if phys ≥ wrapNat 64 (b.physBase + b.bitsSize) then .error .exit
  else do
    let i := (wrapNat 32 (subNat 64 phys b.physBase), subblockSize)
    let fsb ← insertOrDie b.freeSubblocks i.1 i.2
    let (fsb, i) ← mergePrev fsb i
    let (fsb, _) ← mergeNext fsb i
    return { b with freeSubblocks := fsb }

/-- Where the hardware puts a block: the address is not zero, which stands for failure, and
the addresses of the block and its end do not wrap around. A block that ends with the last address
is left out: `unallocate` finds nothing below its end, which is zero, and ends the program. -/
structure Placed (b : MemBlock) : Prop where
  base_pos : 0 < b.physBase
  size_pos : 0 < b.bitsSize
  size_lt : b.bitsSize < 2 ^ 32
  fits : b.physBase + b.bitsSize < 2 ^ 64

end MemBlock

/-! ### Pieces -/

/-- A part of a block, free or allocated. -/
structure Piece where
  start : ℕ
  len : ℕ
  free : Bool
  deriving DecidableEq

variable {r lhs rhs a : ℕ × ℕ} {q p u : Piece}

namespace Piece

/-- The pieces tile `[lo, hi)`. -/
abbrev Tile (lo : ℕ) (ps : List Piece) (hi : ℕ) : Prop :=
  Segments.Tiles Piece.start Piece.len lo ps hi

/-- No two neighbours are free. -/
abbrev Joined (ps : List Piece) : Prop := Segments.Coalesced (fun p : Piece => p.free = true) ps

def range (p : Piece) : ℕ × ℕ := (p.start, p.len)

def freeRanges (ps : List Piece) : List (ℕ × ℕ) := (ps.filter (·.free)).map range

def usedRanges (ps : List Piece) : List (ℕ × ℕ) := (ps.filter (!·.free)).map range

variable {ps qs : List Piece} {p : Piece} {lo hi : ℕ}

@[simp] theorem freeRanges_append : freeRanges (ps ++ qs) = freeRanges ps ++ freeRanges qs := by
  simp [freeRanges]

@[simp] theorem usedRanges_append : usedRanges (ps ++ qs) = usedRanges ps ++ usedRanges qs := by
  simp [usedRanges]

theorem freeRanges_cons_free (h : p.free = true) :
    freeRanges (p :: ps) = p.range :: freeRanges ps := by
  simp [freeRanges, h]

theorem freeRanges_cons_used (h : p.free = false) : freeRanges (p :: ps) = freeRanges ps := by
  simp [freeRanges, h]

theorem usedRanges_cons_free (h : p.free = true) : usedRanges (p :: ps) = usedRanges ps := by
  simp [usedRanges, h]

theorem usedRanges_cons_used (h : p.free = false) :
    usedRanges (p :: ps) = p.range :: usedRanges ps := by
  simp [usedRanges, h]

theorem mem_freeRanges : r ∈ freeRanges ps ↔ ∃ p ∈ ps, p.free = true ∧ p.range = r := by
  simp [freeRanges, and_assoc]

theorem mem_usedRanges : r ∈ usedRanges ps ↔ ∃ p ∈ ps, p.free = false ∧ p.range = r := by
  simp [usedRanges, and_assoc]

theorem split (h : Tile lo (ps ++ p :: qs) hi) : Split (freeRanges ps) p.start (freeRanges qs) := by
  have hpair := h.pairwise
  have hpos := (h.bounds (x := p) (by simp)).2.1
  obtain ⟨-, hrest, hcross⟩ := pairwise_append.mp hpair
  constructor
  · intro r hr
    obtain ⟨q, hq, -, rfl⟩ := mem_freeRanges.mp hr
    have hlen := (h.bounds (x := q) (by simp [hq])).2.1
    have := hcross q hq p mem_cons_self
    exact Nat.lt_of_lt_of_le (by rw [range]; omega) this
  · intro r hr
    obtain ⟨q, hq, -, rfl⟩ := mem_freeRanges.mp hr
    have := (pairwise_cons.mp hrest).1 q hq
    exact Nat.lt_of_lt_of_le (by omega) this

def join (p q : Piece) : Piece := ⟨p.start, p.len + q.len, true⟩

theorem tile_join (h : Tile lo (ps ++ p :: q :: qs) hi) : Tile lo (ps ++ p.join q :: qs) hi := by
  obtain ⟨mid, hps, hp, hpos, hq, hpos', hqs⟩ := tiles_append.mp h
  refine tiles_append.mpr ⟨mid, hps, hp, ?_, ?_⟩
  · exact Nat.add_pos_left hpos _
  · rwa [Nat.add_assoc] at hqs

theorem start_eq_of_tile (h : Tile lo (ps ++ p :: q :: qs) hi) : p.start + p.len = q.start := by
  obtain ⟨mid, -, hp, -, hq, -⟩ := tiles_append.mp h
  omega

end Piece

/-! ### Searching and joining -/

variable {bestSize k : ℕ}

section Find

variable {fsb : FreeSubblocks} {sz : ℕ} {r : ℕ × ℕ}

theorem scan_of_le (h : bestSize ≤ sz) (best : Option (ℕ × ℕ)) :
    fsb.foldl (fun (best : Option (ℕ × ℕ) × ℕ) i =>
      if i.2 ≥ sz ∧ sz < best.2 then (some i, i.2) else best) (best, bestSize) =
        (best, bestSize) := by
  induction fsb with
  | nil => rfl
  | cons i fsb ih => rw [foldl_cons, if_neg (by simp [h]), ih]

/-- The scan stops at a subblock of the requested size, and otherwise keeps the last that fits. -/
theorem scan_eq (h : sz < bestSize) (best : Option (ℕ × ℕ)) :
    (fsb.foldl (fun (best : Option (ℕ × ℕ) × ℕ) i =>
      if i.2 ≥ sz ∧ sz < best.2 then (some i, i.2) else best) (best, bestSize)).1 =
    ((fsb.find? (·.2 = sz)).or (fsb.filter (sz ≤ ·.2)).getLast?).or best := by
  induction fsb generalizing best bestSize with
  | nil => rfl
  | cons i fsb ih =>
    rw [foldl_cons]
    rcases lt_trichotomy i.2 sz with hlt | heq | hgt
    · rw [if_neg (by simp [hlt]), ih h, find?_cons_of_neg (by simp [hlt.ne]),
        filter_cons_of_neg (by simp [hlt])]
    · rw [if_pos ⟨heq.ge, h⟩, scan_of_le heq.le, find?_cons_of_pos (by simp [heq])]
      rfl
    · rw [if_pos ⟨hgt.le, h⟩, ih hgt, find?_cons_of_neg (by simp [hgt.ne']),
        filter_cons_of_pos (by simpa using hgt.le), getLast?_cons]
      cases fsb.find? (·.2 = sz) <;> cases (fsb.filter (sz ≤ ·.2)).getLast? <;> simp

theorem findFreeSubblock_eq (h : sz < 2 ^ 64 - 1) : findFreeSubblock fsb sz =
      (fsb.find? (·.2 = sz)).or (fsb.filter (sz ≤ ·.2)).getLast? := by
  rw [findFreeSubblock, scan_eq h, Option.or_none]

theorem mem_of_findFreeSubblock (h : findFreeSubblock fsb sz = some r) : r ∈ fsb ∧ sz ≤ r.2 := by
  rcases lt_or_ge sz (2 ^ 64 - 1) with hsz | hsz
  · rw [findFreeSubblock_eq hsz, Option.or_eq_some_iff] at h
    rcases h with h | ⟨-, h⟩
    · have heq : r.2 = sz := by simpa using find?_some h
      exact ⟨mem_of_find?_eq_some h, heq.ge⟩
    · simpa using mem_of_getLast? h
  · rw [findFreeSubblock, scan_of_le hsz] at h
    cases h

theorem lt_of_findFreeSubblock (h : findFreeSubblock fsb sz = none) (hr : r ∈ fsb)
    (hlt : r.2 < 2 ^ 32) : r.2 < sz := by
  rcases lt_or_ge sz (2 ^ 64 - 1) with hsz | hsz
  · rw [findFreeSubblock_eq hsz, Option.or_eq_none_iff, getLast?_eq_none_iff,
      filter_eq_nil_iff] at h
    simpa using h.2 r hr
  · omega

/-- A subblock of the smallest size that fits, and none only if none fits. -/
def IsBestFit (fsb : FreeSubblocks) (sz : ℕ) : Option (ℕ × ℕ) → Prop
  | none => ∀ r ∈ fsb, r.2 < sz
  | some r => r ∈ fsb ∧ sz ≤ r.2 ∧ ∀ r' ∈ fsb, sz ≤ r'.2 → r.2 ≤ r'.2

/-- The search returns a best fit iff a subblock has the requested size, or the last of those that
fit is a smallest one. -/
theorem find_free_subblock_best_iff (fsb : FreeSubblocks) (sz : ℕ) (h : ∀ r ∈ fsb, r.2 < 2 ^ 32) :
    IsBestFit fsb sz (findFreeSubblock fsb sz) ↔ (∃ r ∈ fsb, r.2 = sz) ∨
        ∀ r ∈ (fsb.filter (sz ≤ ·.2)).getLast?, ∀ r' ∈ fsb, sz ≤ r'.2 → r.2 ≤ r'.2 := by
  cases hfind : findFreeSubblock fsb sz with
  | none =>
    have hnone : ∀ r ∈ fsb, r.2 < sz := fun r hr => lt_of_findFreeSubblock hfind hr (h r hr)
    exact iff_of_true hnone (.inr fun r hr r' hr' hle => absurd (hnone r' hr') hle.not_gt)
  | some r =>
    obtain ⟨hmem, hle⟩ := mem_of_findFreeSubblock hfind
    have hr := h r hmem
    rw [findFreeSubblock_eq (by omega), Option.or_eq_some_iff] at hfind
    rcases hfind with hexact | ⟨hnone, hlast⟩
    · have heq : r.2 = sz := by simpa using find?_some hexact
      exact iff_of_true ⟨hmem, hle, fun r' _ hle' => heq.trans_le hle'⟩ (.inl ⟨r, hmem, heq⟩)
    · have hne : ¬ ∃ r ∈ fsb, r.2 = sz := by
        rintro ⟨r, hr, heq⟩
        simpa [heq] using find?_eq_none.mp hnone r hr
      simp [IsBestFit, hmem, hle, hne, hlast]

/-- Of two subblocks that fit, the second is smaller. -/
theorem find_free_subblock_best_iff_two :
    IsBestFit [(0, 3), (4, 2)] 1 (findFreeSubblock [(0, 3), (4, 2)] 1) ↔
      (∃ r ∈ [(0, 3), (4, 2)], r.2 = 1) ∨ ∀ r ∈ ([(0, 3), (4, 2)].filter (1 ≤ ·.2)).getLast?,
          ∀ r' ∈ [(0, 3), (4, 2)], 1 ≤ r'.2 → r.2 ≤ r'.2 :=
  find_free_subblock_best_iff [(0, 3), (4, 2)] 1 (by decide)

/-- The first subblock fits better than the last one. -/
theorem larger_subblock_found : findFreeSubblock [(0, 2), (4, 3)] 1 = some (4, 3) ∧
      ¬ IsBestFit [(0, 2), (4, 3)] 1 (findFreeSubblock [(0, 2), (4, 3)] 1) :=
  ⟨rfl, fun h => absurd (h.2.2 (0, 2) (by simp) (by simp)) (by decide)⟩

end Find

section Merge

variable {xs ys : List Piece} {p q : Piece} {hi : ℕ}

theorem insertOrDie_of_split {ls rs : FreeSubblocks} (h : Split ls k rs) (n : ℕ) :
    insertOrDie (ls ++ rs) k n = .ok (ls ++ (k, n) :: rs) := by
  rw [insertOrDie, insert_of_split h]

open Piece

theorem tryMergeSubblocks_join (h : Tile 0 (xs ++ p :: q :: ys) hi) (hhi : hi < 2 ^ 32)
    (hp : p.free = true) (hq : q.free = true) (ret : ℕ × ℕ) :
    tryMergeSubblocks (Piece.freeRanges (xs ++ p :: q :: ys)) ret p.range q.range =
      .ok (Piece.freeRanges (xs ++ p.join q :: ys), (p.join q).range) := by
  have hlink := start_eq_of_tile h
  have hbound := (h.bounds (x := q) (by simp)).2.2
  have hsplit := split h
  have hbelow : Split (freeRanges xs) p.start (freeRanges ys) := by
    refine ⟨hsplit.below, fun r hr => hsplit.above r ?_⟩
    rw [Piece.freeRanges_cons_free hq]
    exact mem_cons_of_mem _ hr
  have hsecond : Split (freeRanges xs) q.start (freeRanges ys) := by
    have h' : Tile 0 (xs ++ [p] ++ q :: ys) hi := by simpa using h
    have hsplit' := split h'
    refine ⟨fun r hr => hsplit'.below r ?_, hsplit'.above⟩
    rw [freeRanges_append]
    exact mem_append_left _ hr
  have hsum : wrapNat 32 (p.len + q.len) = p.len + q.len := wrapNat_of_lt (by omega)
  rw [freeRanges_append, Piece.freeRanges_cons_free hp, tryMergeSubblocks, if_pos]
  · simp only [Piece.range] at hsplit ⊢
    rw [erase_of_split hsplit, Piece.freeRanges_cons_free hq, Piece.range,
      erase_of_split hsecond, insertOrDie_of_split hbelow, hsum,
      freeRanges_append, Piece.freeRanges_cons_free rfl]
    rfl
  · change wrapNat 32 (p.start + p.len) = q.start
    rw [hlink, wrapNat_of_lt (by omega)]

theorem tryMergeSubblocks_skip {fsb : FreeSubblocks}
    (h : lhs.1 + lhs.2 ≠ rhs.1) (hlt : lhs.1 + lhs.2 < 2 ^ 32) (ret : ℕ × ℕ) :
    tryMergeSubblocks fsb ret lhs rhs = .ok (fsb, ret) := by
  rw [tryMergeSubblocks, if_neg (by rwa [wrapNat_of_lt hlt])]
  rfl

theorem end_lt_of_used (h : Tile 0 (xs ++ [q] ++ p :: ys) hi)
    (hr : r ∈ Piece.freeRanges xs) : r.1 + r.2 < p.start := by
  obtain ⟨s, hs, -, rfl⟩ := mem_freeRanges.mp hr
  rw [append_assoc] at h
  have hlink := start_eq_of_tile h
  have hpos := (h.bounds (x := q) (by simp)).2.1
  have hle := (pairwise_append.mp h.pairwise).2.2 s hs q mem_cons_self
  exact Nat.lt_of_le_of_lt hle (by omega)

theorem mergePrev_spec (h : Tile 0 (xs ++ p :: ys) hi) (hhi : hi < 2 ^ 32) (hp : p.free = true)
    (hxs : Joined xs) : ∃ xs' p', mergePrev (Piece.freeRanges (xs ++ p :: ys)) p.range =
        .ok (Piece.freeRanges (xs' ++ p' :: ys), p'.range) ∧
      Tile 0 (xs' ++ p' :: ys) hi ∧ p'.free = true ∧ Joined xs' ∧
      (∀ q ∈ xs'.getLast?, ¬ q.free = true) ∧ usedRanges xs' = usedRanges xs := by
  have hbefore : before (freeRanges (xs ++ p :: ys)) p.range.1 = (freeRanges xs).getLast? := by
    rw [freeRanges_append, Piece.freeRanges_cons_free hp]
    exact before_of_split (split h) p.len
  rw [mergePrev, hbefore]
  rcases eq_nil_or_concat' xs with rfl | ⟨xs, q, rfl⟩
  · exact ⟨[], p, rfl, h, hp, hxs, by simp, rfl⟩
  cases hq : q.free with
  | true =>
    -- the piece before is free and ends where `p` starts
    have hlast : (freeRanges (xs ++ [q])).getLast? = some q.range := by
      rw [freeRanges_append, Piece.freeRanges_cons_free hq]
      exact getLast?_concat
    obtain ⟨hxs', -, hused, -⟩ := around hxs hq
    rw [append_assoc] at h ⊢
    rw [hlast]
    refine ⟨xs, q.join p, tryMergeSubblocks_join h hhi hq hp _, tile_join h, rfl, hxs', hused, ?_⟩
    simp [usedRanges, hq]
  | false =>
    refine ⟨xs ++ [q], p, ?_, h, hp, hxs, by simp [hq], rfl⟩
    cases hlast : (freeRanges (xs ++ [q])).getLast? with
    | none => rfl
    | some r =>
      have hmem := mem_of_getLast? hlast
      rw [freeRanges_append, freeRanges_cons_used hq,
        show freeRanges [] = [] from rfl, append_nil] at hmem
      have hend := end_lt_of_used h hmem
      have hbound := (h.bounds (x := p) (by simp)).2
      exact tryMergeSubblocks_skip hend.ne (by omega) _

theorem mergeNext_spec (h : Tile 0 (xs ++ p :: ys) hi) (hhi : hi < 2 ^ 32) (hp : p.free = true)
    (hys : Joined ys) : ∃ ys' p', mergeNext (Piece.freeRanges (xs ++ p :: ys)) p.range =
        .ok (Piece.freeRanges (xs ++ p' :: ys'), p'.range) ∧
      Tile 0 (xs ++ p' :: ys') hi ∧ p'.free = true ∧ Joined ys' ∧
      (∀ q ∈ ys'.head?, ¬ q.free = true) ∧ usedRanges ys' = usedRanges ys := by
  have hafter : after (freeRanges (xs ++ p :: ys)) p.range.1 = (freeRanges ys).head? := by
    rw [freeRanges_append, Piece.freeRanges_cons_free hp]
    exact after_of_split (split h) p.len
  rw [mergeNext, hafter]
  cases ys with
  | nil => exact ⟨[], p, rfl, h, hp, hys, by simp, rfl⟩
  | cons q ys =>
    cases hq : q.free with
    | true =>
      -- the piece after is free and starts where `p` ends
      obtain ⟨-, hys', -, hused⟩ := @around _ _ _ [] _ hys hq
      rw [Piece.freeRanges_cons_free hq]
      refine ⟨ys, p.join q, tryMergeSubblocks_join h hhi hp hq _, tile_join h, rfl, hys', hused, ?_⟩
      rw [usedRanges_cons_free hq]
    | false =>
      refine ⟨q :: ys, p, ?_, h, hp, hys, by simp [hq], rfl⟩
      rw [freeRanges_cons_used hq]
      cases hhead : (freeRanges ys).head? with
      | none => rfl
      | some r =>
        have hmem := mem_of_head? hhead
        have hlink := start_eq_of_tile h
        have hbound := (h.bounds (x := q) (by simp)).2
        have h' : Tile 0 (xs ++ [p] ++ q :: ys) hi := by simpa using h
        have hsplit := (split h').above r hmem
        exact tryMergeSubblocks_skip (by rw [Piece.range]; omega) (by rw [Piece.range]; omega) _

end Merge

/-! ### The pieces of a block -/

namespace MemBlock

/-- The pieces tile the block, no two neighbours are free, and the map has the free ones. -/
structure Holds (b : MemBlock) (ps : List Piece) : Prop where
  placed : b.Placed
  tiles : Piece.Tile 0 ps b.bitsSize
  joined : Piece.Joined ps
  free : b.freeSubblocks = Piece.freeRanges ps

variable {b : MemBlock} {ps xs ys : List Piece} {n : ℕ}

/-- What `allocate` can do: find no room, or cut the request from the front of a free piece. -/
inductive Allocation (b : MemBlock) (ps : List Piece) (n : ℕ) : MemBlock × ℕ → Prop
  | none (hfull : ∀ r ∈ b.freeSubblocks, r.2 < n) : Allocation b ps n (b, 0)
  | some {xs ys : List Piece} {p : Piece} (fsb : FreeSubblocks) (rest : List Piece)
      (hps : ps = xs ++ p :: ys) (hfree : p.free = true) (hlen : n ≤ p.len)
      (hrest : Piece.usedRanges rest = [])
      (holds : Holds { b with freeSubblocks := fsb } (xs ++ ⟨p.start, n, false⟩ :: (rest ++ ys))) :
      Allocation b ps n ({ b with freeSubblocks := fsb }, b.physBase + p.start)

theorem Holds.create {b : MemBlock} (hplaced : b.Placed)
    (hfree : b.freeSubblocks = [(0, b.bitsSize)]) :
    b.Holds [⟨0, b.bitsSize, true⟩] := by
  refine ⟨hplaced, ⟨rfl, hplaced.size_pos, ?_⟩, .singleton _, hfree⟩
  exact Nat.zero_add _

theorem Holds.bounds (h : b.Holds ps) (hp : p ∈ ps) : 0 < p.len ∧ p.start + p.len ≤ b.bitsSize :=
  (h.tiles.bounds hp).2

open Piece

theorem Holds.carve {rest : List Piece} (h : b.Holds (xs ++ p :: ys)) (hfree : p.free = true)
    (hn : 0 < n) (htile : Tile (p.start + n) rest (p.start + p.len))
    (hjoined : Joined rest) :
    Holds { b with freeSubblocks :=
        Piece.freeRanges xs ++ (Piece.freeRanges rest ++ Piece.freeRanges ys) }
      (xs ++ ⟨p.start, n, false⟩ :: (rest ++ ys)) := by
  have hassoc : xs ++ ⟨p.start, n, false⟩ :: (rest ++ ys) =
      xs ++ (⟨p.start, n, false⟩ :: rest) ++ ys := by simp
  refine ⟨⟨h.placed.base_pos, h.placed.size_pos, h.placed.size_lt, h.placed.fits⟩, ?_, ?_, ?_⟩
  · rw [hassoc]
    have htiles : Tile 0 (xs ++ [p] ++ ys) b.bitsSize := by simpa using h.tiles
    refine htiles.replace fun a c _ hold => ?_
    obtain ⟨rfl, -, rfl⟩ := hold
    exact ⟨rfl, hn, htile⟩
  · rw [hassoc]
    refine replace h.joined hfree (isChain_cons.mpr ⟨?_, hjoined⟩)
    exact fun _ _ hboth => Bool.noConfusion hboth.1
  · simp [freeRanges_cons_used]

theorem Holds.allocate (h : b.Holds ps) (hn : 0 < n) :
    ∃ r, b.allocate n = .ok r ∧ Allocation b ps n r := by
  have hlt := h.placed.size_lt
  unfold MemBlock.allocate
  cases hfind : findFreeSubblock b.freeSubblocks n with
  | none =>
    refine ⟨_, rfl, .none fun r hr => lt_of_findFreeSubblock hfind hr ?_⟩
    rw [h.free] at hr
    obtain ⟨p, hp, -, rfl⟩ := mem_freeRanges.mp hr
    have := h.bounds hp
    exact Nat.lt_of_le_of_lt (Nat.le_add_left _ _) (this.2.trans_lt hlt)
  | some r =>
    obtain ⟨hmem, hle⟩ := mem_of_findFreeSubblock hfind
    rw [h.free] at hmem
    obtain ⟨p, hp, hfree, rfl⟩ := mem_freeRanges.mp hmem
    obtain ⟨xs, ys, rfl⟩ := append_of_mem hp
    have hbounds := h.bounds hp
    have hsplit := split h.tiles
    have hphys : wrapNat 64 (b.physBase + p.start) = b.physBase + p.start := by
      have := h.placed.fits
      exact wrapNat_of_lt (by omega)
    have herase : erase b.freeSubblocks p.start = Piece.freeRanges xs ++ Piece.freeRanges ys := by
      rw [h.free, Piece.freeRanges_append, Piece.freeRanges_cons_free hfree]
      exact erase_of_split hsplit p.len
    dsimp only [Piece.range] at hle ⊢
    rw [hphys, herase]
    by_cases hall : p.len > n
    · -- a smaller free piece is left
      have hend : p.start + n + (p.len - n) = p.start + p.len := by omega
      have htile : Tile (p.start + n) [⟨p.start + n, p.len - n, true⟩] (p.start + p.len) :=
        ⟨rfl, Nat.sub_pos_of_lt hall, hend⟩
      have hcarve := h.carve hfree hn htile (.singleton _)
      have htiles : Tile 0
          (xs ++ [⟨p.start, n, false⟩] ++ ⟨p.start + n, p.len - n, true⟩ :: ys) b.bitsSize := by
        simpa using hcarve.tiles
      have hsplit' := split htiles
      rw [if_pos hall, wrapNat_of_lt (show p.start + n < 2 ^ 32 by omega),
        wrapNat_of_lt (show p.len - n < 2 ^ 32 by omega),
        insertOrDie_of_split (by simpa [Piece.freeRanges] using hsplit')]
      exact ⟨_, rfl, .some _ [⟨p.start + n, p.len - n, true⟩] rfl hfree hle rfl hcarve⟩
    · obtain rfl : n = p.len := by omega
      rw [if_neg hall]
      have htile : Tile (p.start + p.len) [] (p.start + p.len) := rfl
      exact ⟨_, rfl, .some _ [] rfl hfree hle rfl (h.carve hfree hn htile .nil)⟩

theorem Holds.unallocate (h : b.Holds (xs ++ u :: ys)) (hu : u.free = false) :
    ∃ fsb zs, b.unallocate (b.physBase + u.start) u.len = .ok { b with freeSubblocks := fsb } ∧
      Holds { b with freeSubblocks := fsb } zs ∧
      usedRanges zs = usedRanges xs ++ usedRanges ys := by
  have hfits := h.placed.fits
  have hlt := h.placed.size_lt
  have hbounds := h.bounds (p := u) (by simp)
  have hoffset : wrapNat 32 (subNat 64 (b.physBase + u.start) b.physBase) = u.start := by
    rw [subNat_of_le (Nat.le_add_right _ _) (by omega), Nat.add_sub_cancel_left]
    exact wrapNat_of_lt (by omega)
  obtain ⟨hxs, hys⟩ : Joined xs ∧ Joined ys := by
    obtain ⟨hxs, hrest, -⟩ := isChain_append.mp h.joined
    exact ⟨hxs, (isChain_cons.mp hrest).2⟩
  -- the piece becomes free, then the two joins
  have hfree : Tile 0 (xs ++ ⟨u.start, u.len, true⟩ :: ys) b.bitsSize := by
    obtain ⟨mid, htile, hrest⟩ := tiles_append.mp h.tiles
    exact tiles_append.mpr ⟨mid, htile, hrest⟩
  have hinsert : insertOrDie b.freeSubblocks u.start u.len =
      .ok (Piece.freeRanges (xs ++ ⟨u.start, u.len, true⟩ :: ys)) := by
    rw [h.free, Piece.freeRanges_append, freeRanges_cons_used hu,
      insertOrDie_of_split (split h.tiles), Piece.freeRanges_append,
      Piece.freeRanges_cons_free rfl]
    rfl
  obtain ⟨xs', p, hprev, htile, hp, hxs', hlast, hused⟩ := mergePrev_spec hfree hlt rfl hxs
  obtain ⟨ys', q, hnext, htile', hq, hys', hhead, hused'⟩ := mergeNext_spec htile hlt hp hys
  refine ⟨Piece.freeRanges (xs' ++ q :: ys'), xs' ++ q :: ys', ?_, ?_, ?_⟩
  · rw [MemBlock.unallocate, if_neg (by rw [wrapNat_of_lt hfits]; omega)]
    simp only [Piece.range] at hprev hnext
    simp only [hoffset, hinsert, hprev, hnext, Checked.ok_bind]
    rfl
  · exact ⟨⟨h.placed.base_pos, h.placed.size_pos, hlt, hfits⟩, htile',
      insert hxs' hys' hlast hhead, rfl⟩
  · rw [usedRanges_append, usedRanges_cons_free hq, hused, hused']

theorem Holds.isAllFree_iff (h : b.Holds ps) : b.isAllFree = true ↔ usedRanges ps = [] := by
  have hpos := h.placed.size_pos
  constructor
  · intro hall
    -- a free piece is the whole block, so there is no other piece
    have hwhole : (0, b.bitsSize) ∈ Piece.freeRanges ps := by
      rw [← h.free]
      unfold isAllFree at hall
      split at hall
      next offset size heq =>
        obtain ⟨rfl, rfl⟩ : offset = 0 ∧ size = b.bitsSize := by simpa using hall
        rw [heq]
        exact mem_cons_self
      next => cases hall
    obtain ⟨p, hp, hfree, hrange⟩ := mem_freeRanges.mp hwhole
    obtain ⟨hstart, hlen⟩ := Prod.mk.inj hrange
    rw [eq_nil_iff_forall_not_mem]
    intro r hr
    obtain ⟨u, hu, hused, rfl⟩ := mem_usedRanges.mp hr
    have hbounds := h.bounds hu
    have heq := h.tiles.eq_of_covers hp hu (p := u.start) ⟨by omega, by omega⟩ ⟨le_rfl, by omega⟩
    rw [heq, hused] at hfree
    cases hfree
  · intro hused
    have hall : ∀ p ∈ ps, p.free = true := by
      intro p hp
      by_contra hnot
      have := mem_usedRanges.mpr ⟨p, hp, by simpa using hnot, rfl⟩
      rw [hused] at this
      exact not_mem_nil this
    have hlen := length_le_one h.joined hall
    match ps, h, hall, hlen with
    | [], h, _, _ =>
      have := tiles_nil.mp h.tiles
      omega
    | [p], h, hall, _ =>
      obtain ⟨hstart, -, hend⟩ := h.tiles
      have hsize : 0 + p.len = b.bitsSize := tiles_nil.mp hend
      have hfree := h.free
      rw [Piece.freeRanges_cons_free (hall p mem_cons_self), Piece.range, hstart] at hfree
      unfold isAllFree
      rw [hfree]
      simpa [Piece.freeRanges] using hsize

/-! ### Runs -/

inductive Op
  | allocate (requestedSize : ℕ)
  | unallocate (phys subblockSize : ℕ)

/-- A block, and the addresses and sizes of its outstanding allocations. -/
structure Tracked where
  block : MemBlock
  outstanding : List (ℕ × ℕ)

def step (t : Tracked) : Op → Checked (Tracked × ℕ)
  | .allocate n => do
    let (b, phys) ← t.block.allocate n
    return (⟨b, if phys = 0 then t.outstanding else (phys, n) :: t.outstanding⟩, phys)
  | .unallocate phys size => do
    let b ← t.block.unallocate phys size
    return (⟨b, t.outstanding.erase (phys, size)⟩, 0)

/-- Requests are not empty, and what is given back is outstanding. -/
def Proper (t : Tracked) : Op → Prop
  | .allocate n => 0 < n
  | .unallocate phys size => (phys, size) ∈ t.outstanding

instance (t : Tracked) : DecidablePred (Proper t)
  | .allocate n => inferInstanceAs (Decidable (0 < n))
  | .unallocate _ _ => inferInstanceAs (Decidable (_ ∈ _))

/-- An allocation by its offset in the block. -/
def inBlock (b : MemBlock) (a : ℕ × ℕ) : ℕ × ℕ := (a.1 - b.physBase, a.2)

/-- What is right about a block: the free subblocks are not empty, lie inside it in order, and have
gaps between them; with the outstanding allocations they tile it; `allocate` fails only without a
subblock that is large enough; nothing outstanding is refused; and the block is all free exactly if
nothing is outstanding. -/
structure Sound (t : Tracked) : Prop where
  inside : ∀ r ∈ t.block.freeSubblocks, 0 < r.2 ∧ r.1 + r.2 ≤ t.block.bitsSize
  apart : t.block.freeSubblocks.Pairwise fun r q => r.1 + r.2 < q.1
  above : ∀ a ∈ t.outstanding, t.block.physBase ≤ a.1
  partition : ∃ ranges, ranges.Perm
      (t.block.freeSubblocks ++ t.outstanding.map t.block.inBlock) ∧
    Segments.Tiles Prod.fst Prod.snd 0 ranges t.block.bitsSize
  allocate : ∀ n, 0 < n → ∃ b phys, t.block.allocate n = .ok (b, phys) ∧
    (phys = 0 → ∀ r ∈ t.block.freeSubblocks, r.2 < n)
  unallocate : ∀ a ∈ t.outstanding, ∃ b, t.block.unallocate a.1 a.2 = .ok b
  isAllFree : t.block.isAllFree = true ↔ t.outstanding = []

/-- The outstanding allocations are the allocated pieces. -/
def Inv (t : Tracked) : Prop :=
  ∃ ps, t.block.Holds ps ∧
    t.outstanding.Perm ((Piece.usedRanges ps).map fun r => (t.block.physBase + r.1, r.2))

variable {t : Tracked}

theorem Inv.exists_piece {t : Tracked} {ps : List Piece}
    (hperm : t.outstanding.Perm ((usedRanges ps).map fun r => (t.block.physBase + r.1, r.2)))
    (ha : a ∈ t.outstanding) :
    ∃ xs u ys, ps = xs ++ u :: ys ∧ u.free = false ∧ a = (t.block.physBase + u.start, u.len) := by
  obtain ⟨r, hr, rfl⟩ := List.mem_map.mp (hperm.mem_iff.mp ha)
  obtain ⟨u, hu, hused, rfl⟩ := mem_usedRanges.mp hr
  obtain ⟨xs, ys, rfl⟩ := append_of_mem hu
  exact ⟨xs, u, ys, rfl, hused, rfl⟩

theorem step_inv (t : Tracked) (op : Op) (hinv : Inv t) (hop : Proper t op) :
    (step t op).Ensures (fun p => Inv p.1) fun _ => False := by
  obtain ⟨ps, hholds, hperm⟩ := hinv
  cases op with
  | allocate n =>
    obtain ⟨r, hallocate, hr⟩ := hholds.allocate hop
    rw [step, hallocate]
    cases hr with
    | none hfull => exact ⟨ps, hholds, hperm⟩
    | @some xs ys p fsb rest hps hfree hlen hrest holds =>
      have hne : ¬ t.block.physBase + p.start = 0 := by
        have := hholds.placed.base_pos
        omega
      refine ⟨_, holds, ?_⟩
      rw [if_neg hne]
      rw [hps, usedRanges_append, usedRanges_cons_free hfree] at hperm
      rw [usedRanges_append, usedRanges_cons_used rfl, usedRanges_append, hrest]
      simp only [nil_append, map_append, map_cons] at hperm ⊢
      exact (hperm.cons _).trans perm_middle.symm
  | unallocate phys size =>
    obtain ⟨xs, u, ys, rfl, hused, ha⟩ := Inv.exists_piece hperm hop
    obtain ⟨rfl, rfl⟩ := Prod.mk.inj ha
    obtain ⟨fsb, zs, hunallocate, holds, hzs⟩ := hholds.unallocate hused
    rw [step, hunallocate]
    refine ⟨zs, holds, ?_⟩
    rw [hzs]
    rw [usedRanges_append, usedRanges_cons_used hused] at hperm
    simp only [map_append, map_cons] at hperm ⊢
    have := (hperm.trans perm_middle).erase (t.block.physBase + u.start, u.len)
    rwa [Piece.range, erase_cons_head] at this

theorem Inv.sound (hinv : Inv t) : Sound t := by
  obtain ⟨ps, h, hperm⟩ := hinv
  constructor
  case inside =>
    intro r hr
    rw [h.free] at hr
    obtain ⟨p, hp, -, rfl⟩ := mem_freeRanges.mp hr
    exact h.bounds hp
  case apart =>
    have hgap := (h.tiles.pairwise_free h.joined).filter (·.free)
    rw [h.free, Piece.freeRanges, pairwise_map]
    apply hgap.imp_of_mem
    intro p q hp hq hlt
    exact hlt (mem_filter.mp hp).2 (mem_filter.mp hq).2
  case above =>
    intro a ha
    obtain ⟨xs, u, ys, -, -, rfl⟩ := Inv.exists_piece hperm ha
    exact Nat.le_add_right _ _
  case partition =>
    refine ⟨ps.map Piece.range, ?_, (tiles_map _).mpr h.tiles⟩
    have hused := hperm.map t.block.inBlock
    rw [List.map_map] at hused
    have hback : (inBlock t.block ∘ fun r : ℕ × ℕ => (t.block.physBase + r.1, r.2)) = id := by
      funext r
      simp [inBlock]
    rw [hback, List.map_id] at hused
    have hsplit := (filter_append_perm (·.free) ps).map Piece.range
    rw [map_append] at hsplit
    rw [h.free]
    exact hsplit.symm.trans (Perm.append_left _ hused.symm)
  case allocate =>
    intro n hn
    obtain ⟨r, hallocate, hr⟩ := h.allocate hn
    cases hr with
    | none hfull => exact ⟨_, _, hallocate, fun _ => hfull⟩
    | some fsb rest hps hfree hlen hrest holds =>
      refine ⟨_, _, hallocate, fun hzero => ?_⟩
      have := h.placed.base_pos
      omega
  case unallocate =>
    intro a ha
    obtain ⟨xs, u, ys, rfl, hused, rfl⟩ := Inv.exists_piece hperm ha
    obtain ⟨fsb, zs, hunallocate, -⟩ := h.unallocate hused
    exact ⟨_, hunallocate⟩
  case isAllFree =>
    rw [h.isAllFree_iff]
    constructor
    · intro hused
      rw [hused] at hperm
      exact hperm.eq_nil
    · intro hnil
      rw [hnil] at hperm
      simpa using hperm.symm.eq_nil

/-- **Free subblocks.** In every run of a block, with requests that are not empty and in which
what is given back is outstanding, the program does not end, and in every state reached the free
subblocks and the outstanding allocations are right. -/
theorem subblocks_partition (b : MemBlock) (hplaced : b.Placed)
    (hfree : b.freeSubblocks = [(0, b.bitsSize)]) (ops : List Op)
    (h : Meets step Proper ⟨b, []⟩ ops) :
    (run step ⟨b, []⟩ ops).2.Ensures Sound fun _ => False := by
  have hinv : Inv ⟨b, []⟩ := ⟨_, .create hplaced hfree, .refl _⟩
  exact (run_invariant step_inv ops _ hinv h).mono fun _ => Inv.sound

/-- Three allocations, given back out of order. -/
def outOfOrder : List Op :=
  [.allocate 0x1000, .allocate 0x2000, .allocate 0x1000, .unallocate 0x70000000 0x1000,
    .unallocate 0x70003000 0x1000, .unallocate 0x70001000 0x2000]

theorem subblocks_partition_example :
    (run step ⟨create 0x70000000 0x10000 fun _ => 0, []⟩ outOfOrder).1 =
        [0x70000000, 0x70001000, 0x70003000, 0, 0, 0] ∧
      (run step ⟨create 0x70000000 0x10000 fun _ => 0, []⟩ outOfOrder).2.Ensures Sound
        fun _ => False := by
  refine ⟨by decide +kernel, subblocks_partition (create 0x70000000 0x10000 fun _ => 0) ?_ rfl _ ?_⟩
  · constructor <;> decide
  · decide +kernel

theorem step_inv_of_base (b : MemBlock) (t : Tracked) (op : Op)
    (h : Inv t ∧ t.block.physBase = b.physBase ∧ t.block.bitsSize = b.bitsSize)
    (hop : Proper t op) : (step t op).Ensures
      (fun p => Inv p.1 ∧ p.1.block.physBase = b.physBase ∧ p.1.block.bitsSize = b.bitsSize)
      fun _ => False := by
  obtain ⟨hinv, hbase⟩ := h
  have hstep := step_inv t op hinv hop
  obtain ⟨ps, hholds, hperm⟩ := hinv
  -- no operation changes where the block lies
  cases op with
  | allocate n =>
    obtain ⟨r, hallocate, hr⟩ := hholds.allocate hop
    rw [step, hallocate] at hstep ⊢
    exact ⟨hstep, by cases hr <;> exact hbase⟩
  | unallocate phys size =>
    obtain ⟨xs, u, ys, rfl, hused, ha⟩ := Inv.exists_piece hperm hop
    obtain ⟨rfl, rfl⟩ := Prod.mk.inj ha
    obtain ⟨fsb, zs, hunallocate, -⟩ := hholds.unallocate hused
    rw [step, hunallocate] at hstep ⊢
    exact ⟨hstep, hbase⟩

theorem Inv.mem_iff {ps : List Piece} {p : Piece} (hp : ¬ p.free = true)
    (hperm : t.outstanding.Perm ((usedRanges ps).map fun r => (t.block.physBase + r.1, r.2))) :
    p ∈ ps ↔ (t.block.physBase + p.start, p.len) ∈ t.outstanding := by
  constructor
  · intro hmem
    apply hperm.mem_iff.mpr
    exact mem_map_of_mem (mem_usedRanges.mpr ⟨p, hmem, Bool.not_eq_true _ ▸ hp, rfl⟩)
  · intro hmem
    obtain ⟨xs, ⟨_, _, _⟩, ys, rfl, hused, ha⟩ := Inv.exists_piece hperm hmem
    obtain ⟨_, _, _⟩ := p
    simp_all

/-- The outstanding allocations determine the free subblocks, in whatever order they were made and
others given back. -/
theorem freeSubblocks_eq_of_perm (b : MemBlock) (hplaced : b.Placed)
    (hfree : b.freeSubblocks = [(0, b.bitsSize)]) (ops ops' : List Op) (t t' : Tracked)
    (h : Meets step Proper ⟨b, []⟩ ops) (h' : Meets step Proper ⟨b, []⟩ ops')
    (hrun : (run step ⟨b, []⟩ ops).2 = .ok t) (hrun' : (run step ⟨b, []⟩ ops').2 = .ok t')
    (hperm : t.outstanding.Perm t'.outstanding) :
    t.block.freeSubblocks = t'.block.freeSubblocks := by
  have hstart : Inv ⟨b, []⟩ := ⟨_, .create hplaced hfree, .refl _⟩
  obtain ⟨⟨ps, hps, hout⟩, hbase, hsize⟩ :=
    (run_invariant (step_inv_of_base b) ops _ ⟨hstart, rfl, rfl⟩ h).of_ok hrun
  obtain ⟨⟨qs, hqs, hout'⟩, hbase', hsize'⟩ :=
    (run_invariant (step_inv_of_base b) ops' _ ⟨hstart, rfl, rfl⟩ h').of_ok hrun'
  have hused (p : Piece) (hp : ¬ p.free = true) : p ∈ ps ↔ p ∈ qs := by
    rw [Inv.mem_iff hp hout, Inv.mem_iff hp hout', hbase, hbase', hperm.mem_iff]
  -- the pieces tile the same range, and the used ones are the same
  have htiles := hps.tiles
  have htiles' := hqs.tiles
  rw [hsize] at htiles
  rw [hsize'] at htiles'
  rw [hps.free, hqs.free, htiles.ext htiles' hps.joined hqs.joined hused]
  rintro ⟨_, _, _⟩ ⟨_, _, _⟩ rfl rfl rfl rfl
  rfl

theorem freeSubblocks_eq_of_perm_example : ∃ t t',
    (run step ⟨create 0x70000000 0x10000 fun _ => 0, []⟩ outOfOrder).2 = .ok t ∧
      (run step ⟨create 0x70000000 0x10000 fun _ => 0, []⟩ []).2 = .ok t' ∧
      t.block.freeSubblocks = t'.block.freeSubblocks := by
  refine ⟨_, _, rfl, rfl, freeSubblocks_eq_of_perm (create 0x70000000 0x10000 fun _ => 0) ?_ rfl
    outOfOrder [] _ _ ?_ trivial rfl rfl (by decide +kernel)⟩
  · constructor <;> decide
  · decide +kernel

end MemBlock

end AndroidEmu.SharedSlots
