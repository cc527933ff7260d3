import AndroidEmu.CS.Memory
import AndroidEmu.CS.SinglyLinked

/-!
# Blocks of a pool

`android/base/Pool.cpp`: a free chunk holds the index of the next free one. Chunks from `numAlloced`
on have never been written, and each allocation links one more.
-/

namespace AndroidEmu.Base.Pool

open CS List Nat

/-! ### Doubling -/

/-- The loop of `ilog2Floor` and `leastPowerof2`: the power and its exponent. A bit shifted out of
a `size_t` leaves zero for ever. -/
def double (n : ℕ) : ℕ → ℕ → ℕ → Checked (ℕ × ℕ)
  | 0, _, _ => .error .endless
  | rounds + 1, test, res =>
    if test < n then double n rounds (wrapNat 64 (test * 2)) (res + 1) else .ok (test, res)

/-- `ilog2Floor`, which rounds up. -/
def ilog2Floor (n : ℕ) : Checked ℕ := do
  let (_, res) ← double n 65 1 0
  return res

def leastPowerof2 (n : ℕ) : Checked ℕ := do
  let (test, _) ← double n 65 1 0
  return test

variable {n e e' k : ℕ}

theorem double_eq (hn : n ≤ 2 ^ 63) (rounds : ℕ) : ∀ {k : ℕ}, k ≤ clog 2 n → clog 2 n - k < rounds →
    double n rounds (2 ^ k) k = .ok (2 ^ clog 2 n, clog 2 n) := by
  have hclog : clog 2 n ≤ 63 := clog_le_of_le_pow hn
  induction rounds with
  | zero => exact fun _ h => absurd h (by omega)
  | succ rounds ih =>
    intro k hk hrounds
    rw [double]
    split_ifs with hlt
    · have hk' : k < clog 2 n := (lt_clog_iff_pow_lt (by norm_num)).mpr hlt
      have hpow : 2 ^ k * 2 = 2 ^ (k + 1) := (pow_succ 2 k).symm
      rw [hpow, wrapNat_of_lt (Nat.pow_lt_pow_right (by norm_num) (by omega))]
      exact ih hk' (by omega)
    · have hle : clog 2 n ≤ k := clog_le_of_le_pow (by omega)
      rw [le_antisymm hk hle]

theorem ilog2Floor_eq (hn : n ≤ 2 ^ 63) : ilog2Floor n = .ok (clog 2 n) := by
  have hclog : clog 2 n ≤ 63 := clog_le_of_le_pow hn
  have := double_eq hn 65 (zero_le _) (by omega)
  rw [pow_zero] at this
  rw [ilog2Floor, this]
  rfl

theorem leastPowerof2_eq (hn : n ≤ 2 ^ 63) : leastPowerof2 n = .ok (2 ^ clog 2 n) := by
  have hclog : clog 2 n ≤ 63 := clog_le_of_le_pow hn
  have := double_eq hn 65 (zero_le _) (by omega)
  rw [pow_zero] at this
  rw [leastPowerof2, this]
  rfl

/-! ### Blocks -/

/-- The members of a `Block` that are set once. -/
structure Shape where
  chunkSize : ℕ
  chunkSizeLog2 : ℕ
  numChunks : ℕ
  sizeBytes : ℕ

/-- `getPtr`, relative to `data`. -/
def Shape.getPtr (b : Shape) (element : ℕ) : ℕ := wrapNat 64 (b.chunkSize * element)

/-- `Block::getElement`. -/
def Shape.getElement (b : Shape) (ptr : ℕ) : ℕ := ptr >>> b.chunkSizeLog2

/-- Pointers are relative to `data`; `words` are the `size_t`s in its memory. -/
structure Block extends Shape where
  numFree : ℕ
  numAlloced : ℕ
  nextFree : Option ℕ
  words : ℕ → ℕ

namespace Block

def new (chunkSize numChunks : ℕ) : Checked Block := do
  check (8 ≤ chunkSize)
  let log2 ← ilog2Floor chunkSize
  return ⟨⟨chunkSize, log2, numChunks, wrapNat 64 (chunkSize * numChunks)⟩, numChunks, 0, some 0,
    fun _ => 0⟩

/-- `Block::isFull`. -/
def isFull (b : Block) : Bool := b.numFree == 0

def load (b : Block) (ptr : ℕ) : Checked ℕ :=
  if ptr + 8 ≤ b.sizeBytes then .ok (b.words ptr) else .error .outOfBounds

def store (b : Block) (ptr value : ℕ) : Checked Block :=
  if ptr + 8 ≤ b.sizeBytes then .ok { b with words := Function.update b.words ptr value }
  else .error .outOfBounds

/-- The first part of `alloc`: one more chunk is linked. -/
def link (b : Block) : Checked Block :=
  if b.numAlloced < b.numChunks then do
    let b' ← b.store (b.getPtr b.numAlloced) (b.numAlloced + 1)
    return { b' with numAlloced := b.numAlloced + 1 }
  else .ok b

/-- The second part of `alloc`: the first free chunk is taken. -/
def take (b : Block) : Checked (Block × Option ℕ) :=
  if b.numFree = 0 then .ok (b, none)
  else if b.numFree - 1 = 0 then .ok ({ b with numFree := 0, nextFree := none }, b.nextFree)
  else
    match b.nextFree with
    | none => .error .nullPointer
    | some ptr => do
      let next ← b.load ptr
      return ({ b with numFree := b.numFree - 1, nextFree := some (b.getPtr next) }, some ptr)

/-- `Block::alloc`. -/
def alloc (b : Block) : Checked (Block × Option ℕ) := do
  let b ← b.link
  b.take

/-- `Block::free`. -/
def free (b : Block) (toFree : ℕ) : Checked Block := do
  let next := match b.nextFree with
    | some ptr => b.getElement ptr
    | none => b.numChunks
  let b ← b.store toFree next
  return { b with nextFree := some toFree, numFree := b.numFree + 1 }

/-- `Block::freeAll`. -/
def freeAll (b : Block) : Block :=
  { b with numFree := b.numChunks, numAlloced := 0, nextFree := some 0 }

end Block

/-! ### The free list -/

/-- The chunk size is a power of two, and the memory holds all chunks. -/
structure Shape.Regular (b : Shape) : Prop where
  chunkSize_eq : b.chunkSize = 2 ^ b.chunkSizeLog2
  word_le : 8 ≤ b.chunkSize
  numChunks_pos : 0 < b.numChunks
  sizeBytes_eq : b.sizeBytes = b.chunkSize * b.numChunks
  sizeBytes_lt : b.sizeBytes < 2 ^ 64

namespace Shape.Regular

variable {b : Shape} {e e' : ℕ}

theorem chunkSize_pos (h : Regular b) : 0 < b.chunkSize := by
  have := h.word_le
  omega

theorem getElement_mul (h : Regular b) (e : ℕ) : b.getElement (b.chunkSize * e) = e := by
  rw [getElement, shiftRight_eq_div_pow, ← h.chunkSize_eq,
    Nat.mul_div_cancel_left _ h.chunkSize_pos]

theorem mul_add_le (h : Regular b) (he : e < b.numChunks) :
    b.chunkSize * e + b.chunkSize ≤ b.sizeBytes := by
  rw [h.sizeBytes_eq]
  exact mul_le_mul_left _ he

theorem getPtr_eq (h : Regular b) (he : e ≤ b.numChunks) : b.getPtr e = b.chunkSize * e := by
  have hsize := h.sizeBytes_lt
  rw [h.sizeBytes_eq] at hsize
  exact wrapNat_of_lt ((mul_le_mul_left _ he).trans_lt hsize)

theorem mul_inj (h : Regular b) : b.chunkSize * e = b.chunkSize * e' ↔ e = e' :=
  Nat.mul_left_cancel_iff h.chunkSize_pos

end Shape.Regular

namespace Block

/-- The block with a `size_t` written to a chunk. -/
def setNext (b : Block) (e value : ℕ) : Block :=
  { b with words := Function.update b.words (b.chunkSize * e) value }

/-- The index in the first bytes of a chunk. -/
def next (b : Block) (e : ℕ) : Option ℕ := some (b.words (b.chunkSize * e))

variable {b : Block} {live : List ℕ} {e : ℕ}

theorem load_eq (h : b.Regular) (he : e < b.numChunks) :
    b.load (b.chunkSize * e) = .ok (b.words (b.chunkSize * e)) := by
  have := h.mul_add_le he
  have := h.word_le
  exact if_pos (by omega)

theorem store_eq (h : b.Regular) (he : e < b.numChunks) (value : ℕ) :
    b.store (b.chunkSize * e) value = .ok (b.setNext e value) := by
  have := h.mul_add_le he
  have := h.word_le
  exact if_pos (by omega)

theorem next_setNext_self (b : Block) (e value : ℕ) : (b.setNext e value).next e = some value :=
  congrArg some (Function.update_self _ _ _)

theorem next_setNext_of_ne (h : b.Regular) (hne : e' ≠ e) (value : ℕ) :
    (b.setNext e value).next e' = b.next e' :=
  congrArg some (Function.update_of_ne (fun heq => hne (h.mul_inj.mp heq)) _ _)

/-- The chunks of `freeList` are linked, from `nextFree` on and up to the first one that was never
linked; the others that were linked are live. -/
structure Lists (b : Block) (freeList live : List ℕ) : Prop where
  regular : b.Regular
  numAlloced_le : b.numAlloced ≤ b.numChunks
  path : ∃ head, Path b.next (some head) freeList (some b.numAlloced) ∧
    b.nextFree = if b.numFree = 0 then none else some (b.chunkSize * head)
  perm : (freeList ++ live).Perm (List.range b.numAlloced)
  count : b.numFree = freeList.length + (b.numChunks - b.numAlloced)

def Holds (b : Block) (live : List ℕ) : Prop := ∃ freeList, Lists b freeList live

namespace Lists

variable {freeList : List ℕ}

section

variable (h : Lists b freeList live)

include h

theorem lt_of_free (he : e ∈ freeList) : e < b.numAlloced :=
  mem_range.mp (h.perm.mem_iff.mp (mem_append_left _ he))

theorem lt_of_live (he : e ∈ live) : e < b.numAlloced :=
  mem_range.mp (h.perm.mem_iff.mp (mem_append_right _ he))

theorem nodup : (freeList ++ live).Nodup :=
  h.perm.nodup_iff.mpr nodup_range

theorem not_mem_free (he : e ∈ live) : e ∉ freeList :=
  fun hfree => (nodup_append.mp h.nodup).2.2 e hfree e he rfl

theorem link : ∃ b' freeList', b.link = .ok b' ∧ Lists b' freeList' live ∧ b'.toShape = b.toShape ∧
      b'.numFree = b.numFree ∧ b'.nextFree = b.nextFree ∧ (freeList' = [] → b'.numFree = 0) := by
  unfold Block.link
  split_ifs with hlt
  · obtain ⟨head, hpath, hnext⟩ := h.path
    have hptr := h.regular.getPtr_eq hlt.le
    refine ⟨{ b.setNext b.numAlloced (b.numAlloced + 1) with numAlloced := b.numAlloced + 1 },
      freeList ++ [b.numAlloced], ?_, ⟨h.regular, hlt, ⟨head, ?_, hnext⟩, ?_, ?_⟩, rfl, rfl, rfl,
      by simp⟩
    · rw [hptr, store_eq h.regular hlt]
      rfl
    · -- the old list leads to the chunk, and the chunk to the one after it
      have hold : Path (b.setNext b.numAlloced (b.numAlloced + 1)).next (some head) freeList
          (some b.numAlloced) :=
        hpath.congr fun e he => next_setNext_of_ne h.regular (h.lt_of_free he).ne _
      exact hold.append ⟨rfl, next_setNext_self b _ _⟩
    · have hperm :
          (freeList ++ [b.numAlloced] ++ live).Perm (freeList ++ live ++ [b.numAlloced]) := by
        rw [append_assoc, append_assoc]
        exact perm_append_comm.append_left freeList
      rw [range_succ]
      exact hperm.trans (h.perm.append_right _)
    · change b.numFree = (freeList ++ [b.numAlloced]).length + (b.numChunks - (b.numAlloced + 1))
      rw [h.count, length_append, length_singleton]
      omega
  · refine ⟨b, freeList, rfl, h, rfl, rfl, rfl, ?_⟩
    intro hnil
    rw [h.count, hnil, length_nil]
    omega

omit h in
theorem take {rest : List ℕ} (h : Lists b (e :: rest) live) :
    b.nextFree = some (b.chunkSize * e) ∧ ∃ b', b.take = .ok (b', b.nextFree) ∧
      Lists b' rest (e :: live) ∧ b'.toShape = b.toShape := by
  obtain ⟨head, ⟨hhead, hpath⟩, hnext⟩ := h.path
  obtain rfl : head = e := Option.some.inj hhead
  have hcount := h.count
  rw [length_cons] at hcount
  rw [if_neg (by omega)] at hnext
  have hperm : (rest ++ head :: live).Perm (List.range b.numAlloced) :=
    perm_middle.trans h.perm
  refine ⟨hnext, ?_⟩
  unfold Block.take
  rw [if_neg (by omega)]
  by_cases hlast : b.numFree - 1 = 0
  · rw [if_pos hlast]
    refine ⟨_, rfl, ⟨h.regular, h.numAlloced_le, ⟨_, hpath, rfl⟩, hperm, ?_⟩, rfl⟩
    change 0 = rest.length + (b.numChunks - b.numAlloced)
    omega
  rw [if_neg hlast, hnext]
  have hlt : head < b.numChunks :=
    (h.lt_of_free mem_cons_self).trans_le h.numAlloced_le
  -- the index read is that of the rest of the list
  have hle : b.words (b.chunkSize * head) ≤ b.numChunks := by
    cases rest with
    | nil =>
      have hend : b.words (b.chunkSize * head) = b.numAlloced := Option.some.inj hpath
      exact hend ▸ h.numAlloced_le
    | cons e' rest =>
      have hend : b.words (b.chunkSize * head) = e' := Option.some.inj hpath.1
      rw [hend]
      exact (h.lt_of_free (by simp)).le.trans h.numAlloced_le
  refine ⟨{ b with
      numFree := b.numFree - 1
      nextFree := some (b.chunkSize * b.words (b.chunkSize * head)) }, ?_,
    ⟨h.regular, h.numAlloced_le, ⟨_, hpath, (if_neg hlast).symm⟩, hperm, ?_⟩, rfl⟩
  · simp only [load_eq h.regular hlt, Checked.ok_bind, h.regular.getPtr_eq hle]
    rfl
  · change b.numFree - 1 = rest.length + (b.numChunks - b.numAlloced)
    omega

theorem free (he : e ∈ live) :
    ∃ b', b.free (b.chunkSize * e) = .ok b' ∧ Lists b' (e :: freeList) (live.erase e) ∧
      b'.toShape = b.toShape ∧ b'.numFree = b.numFree + 1 ∧
      b'.nextFree = some (b.chunkSize * e) := by
  obtain ⟨head, hpath, hnext⟩ := h.path
  have hlt : e < b.numChunks := (h.lt_of_live he).trans_le h.numAlloced_le
  -- what is stored is the head of the list; a full block's list ends where the block does
  have hvalue : (match b.nextFree with
      | some ptr => b.getElement ptr
      | none => b.numChunks) = head := by
    rw [hnext]
    split_ifs with hfull
    · have hcount := h.count
      have hnil : freeList = [] := length_eq_zero_iff.mp (by omega)
      have hle := h.numAlloced_le
      rw [hnil] at hpath
      have hhead : head = b.numAlloced := Option.some.inj hpath
      dsimp only
      omega
    · exact h.regular.getElement_mul head
  refine ⟨{ b.setNext e head with nextFree := some (b.chunkSize * e), numFree := b.numFree + 1 },
    ?_, ⟨h.regular, h.numAlloced_le, ⟨e, ⟨rfl, ?_⟩, (if_neg (succ_ne_zero _)).symm⟩, ?_, ?_⟩,
    rfl, rfl, rfl⟩
  · unfold Block.free
    simp only [hvalue, store_eq h.regular hlt, Checked.ok_bind]
    rfl
  · have hself := next_setNext_self b e head
    change Path (b.setNext e head).next ((b.setNext e head).next e) freeList _
    rw [hself]
    apply hpath.congr
    intro e' he'
    apply next_setNext_of_ne h.regular
    rintro rfl
    exact h.not_mem_free he he'
  · refine List.Perm.trans ?_ h.perm
    refine perm_middle.symm.trans ?_
    exact (List.perm_cons_erase he).symm.append_left freeList
  · change b.numFree + 1 = (e :: freeList).length + (b.numChunks - b.numAlloced)
    rw [h.count, length_cons]
    omega

end

end Lists

section

variable (h : Holds b live)

include h

theorem Holds.regular : b.Regular := h.elim fun _ hlists => hlists.regular

theorem Holds.live_lt (he : e ∈ live) : e < b.numChunks := by
  obtain ⟨free, hlists⟩ := h
  exact (hlists.lt_of_live he).trans_le hlists.numAlloced_le

theorem Holds.perm {live' : List ℕ} (hperm : live.Perm live') : Holds b live' := by
  obtain ⟨free, hlists⟩ := h
  exact ⟨free, { hlists with perm := (hperm.symm.append_left free).trans hlists.perm }⟩

theorem Holds.nodup : live.Nodup := by
  obtain ⟨free, hlists⟩ := h
  exact (nodup_append.mp hlists.nodup).2.1

theorem Holds.numFree_add : b.numFree + live.length = b.numChunks := by
  obtain ⟨free, hlists⟩ := h
  have hlen := hlists.perm.length_eq
  have := hlists.numAlloced_le
  have := hlists.count
  rw [length_append, length_range] at hlen
  omega

end

/-- A block of which no chunk was ever linked. -/
def fresh (shape : Shape) : Block := ⟨shape, shape.numChunks, 0, some 0, fun _ => 0⟩

theorem holds_fresh {shape : Shape} (h : shape.Regular) : Holds (fresh shape) [] :=
  ⟨[], h, zero_le _, ⟨0, rfl, (if_neg h.numChunks_pos.ne').symm⟩, Perm.refl _, (zero_add _).symm⟩

theorem new_eq (hword : 8 ≤ 2 ^ k) (hn : 0 < n) (hsize : 2 ^ k * n < 2 ^ 64) :
    new (2 ^ k) n = .ok (fresh ⟨2 ^ k, k, n, 2 ^ k * n⟩) := by
  have hlt : 2 ^ k < 2 ^ 64 := (Nat.le_mul_of_pos_right _ hn).trans_lt hsize
  have hk : k < 64 := (Nat.pow_lt_pow_iff_right (by norm_num)).mp hlt
  have hlog : ilog2Floor (2 ^ k) = .ok k := by
    rw [ilog2Floor_eq (Nat.pow_le_pow_right (by norm_num) (by omega)), clog_pow 2 k (by norm_num)]
  unfold new
  rw [check_of hword, hlog, wrapNat_of_lt hsize]
  rfl

theorem Holds.freeAll (h : Holds b live) : Holds b.freeAll [] :=
  ⟨[], h.regular, zero_le _, ⟨0, rfl, (if_neg h.regular.numChunks_pos.ne').symm⟩,
    Perm.refl _, (zero_add _).symm⟩

theorem Holds.alloc (h : Holds b live) (hfree : b.numFree ≠ 0) :
    ∃ b' e, b.nextFree = some (b.chunkSize * e) ∧ b.alloc = .ok (b', b.nextFree) ∧
      Holds b' (e :: live) ∧ b'.toShape = b.toShape := by
  obtain ⟨free, hlists⟩ := h
  obtain ⟨b1, free1, hlink, hlists1, hshape, hnum, hnext, hnil⟩ := hlists.link
  cases free1 with
  | nil => exact absurd (hnum ▸ hnil rfl) hfree
  | cons e rest =>
    obtain ⟨hhead, b', htake, hlists', hshape'⟩ := hlists1.take
    have hsize : b1.chunkSize = b.chunkSize := congrArg Shape.chunkSize hshape
    refine ⟨b', e, ?_, ?_, ⟨rest, hlists'⟩, hshape'.trans hshape⟩
    · rw [← hnext, hhead, hsize]
    · unfold Block.alloc
      rw [hlink, Checked.ok_bind, htake, hnext]

theorem Holds.free (h : Holds b live) (he : e ∈ live) :
    ∃ b', b.free (b.chunkSize * e) = .ok b' ∧ Holds b' (live.erase e) ∧ b'.toShape = b.toShape ∧
      b'.numFree = b.numFree + 1 ∧ b'.nextFree = some (b.chunkSize * e) := by
  obtain ⟨free, hlists⟩ := h
  obtain ⟨b', hfree, hlists', hrest⟩ := hlists.free he
  exact ⟨b', hfree, ⟨_, hlists'⟩, hrest⟩

theorem Holds.setNext (h : Holds b live) (he : e ∈ live) (value : ℕ) :
    Holds (b.setNext e value) live := by
  obtain ⟨free, hlists⟩ := h
  obtain ⟨head, hpath, hnext⟩ := hlists.path
  refine ⟨free, hlists.regular, hlists.numAlloced_le, ⟨head, ?_, hnext⟩, hlists.perm, hlists.count⟩
  apply hpath.congr
  intro e' he'
  apply next_setNext_of_ne hlists.regular
  rintro rfl
  exact hlists.not_mem_free he he'

end Block

end AndroidEmu.Base.Pool
