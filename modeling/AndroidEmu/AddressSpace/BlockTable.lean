import AndroidEmu.AddressSpace.Allocator

/-!
# The allocator as a list of blocks

The blocks in use, with how many entries the array really has (`room`) and how many `capacity`
claims. `AndroidEmu.AddressSpace.Refinement` has that the array computes this.
-/

namespace AndroidEmu.AddressSpace

open CS List Option

/-- The blocks in use, the entries in the array, and the two counters. -/
structure BlockTable where
  blocks : List AddressBlock
  room : ℕ
  capacity : ℤ
  totalBytes : ℕ

def splice (blocks : List AddressBlock) (i : ℕ) (new : List AddressBlock) : List AddressBlock :=
  blocks.take i ++ new ++ blocks.drop (i + 1)

@[simp] theorem splice_append_cons (pre : List AddressBlock) (b : AddressBlock)
    (post new : List AddressBlock) :
    splice (pre ++ b :: post) pre.length new = pre ++ new ++ post := by
  simp [splice]

/-- The best index after the blocks of the list, which start at index `i`. -/
def bestFitFrom (size : ℕ) : List AddressBlock → ℕ → Option (ℕ × ℕ) → Option (ℕ × ℕ)
  | [], _, best => best
  | b :: bs, i, best =>
    let better : Bool := match best with
      | none => true
      | some (_, sizeAtIndex) => b.size < sizeAtIndex
    if size ≤ b.size ∧ b.available ∧ better then bestFitFrom size bs (i + 1) (some (i, b.size))
    else bestFitFrom size bs (i + 1) best

/-- The index of the smallest available block that fits. -/
def bestFit (size : ℕ) (bs : List AddressBlock) : Option ℕ :=
  (bestFitFrom size bs 0 none).map Prod.fst

/-- Whether the search for an offset stops at a block: it does at a match, and gives
up at an empty block. -/
def matchesOffset (size offset : ℕ) (b : AddressBlock) : Bool :=
  size ≤ b.size ∧ b.available ∧ b.offset ≤ offset ∧ offset < wrapNat 64 (b.offset + b.size)

/-- The index of the first available block that is long enough and contains the
offset. -/
def fitAtOffset (size offset : ℕ) (bs : List AddressBlock) : Option ℕ :=
  match bs with
  | [] => none
  | b :: bs =>
    if b.size = 0 then none
    else if matchesOffset size offset b then some 0
    else (fitAtOffset size offset bs).map (· + 1)

/-- The blocks that replace a block when its last `size` bytes are taken. -/
def cutTail (b : AddressBlock) (size : ℕ) : List AddressBlock :=
  [b.withSize (b.size - size), .ofFields (b.offset + (b.size - size)) size false]

/-- The blocks that replace a block when `size` bytes at `offset` are taken. A
request that runs past the end of the block leaves a remainder of negative length,
which wraps around. -/
def cutAt (b : AddressBlock) (size offset : ℕ) : Checked (List AddressBlock) :=
  if offset = b.offset then do
    check (0 < size)
    return [(b.withSize size).withAvailable false, .ofFields (offset + size) (b.size - size) true]
  else if b.size - size = offset - b.offset then
    .ok [b.withSize (offset - b.offset), .ofFields offset size false]
  else
    .ok [b.withSize (offset - b.offset), .ofFields offset size false,
      .ofFields (offset + size) (subNat 64 (b.size - size) (offset - b.offset)) true]

/-- The list after `b`, between `pre` and `post`, is released and merged with the
neighbours that are available. -/
def released (pre : List AddressBlock) (b : AddressBlock) (post : List AddressBlock) :
    List AddressBlock :=
  match pre.getLast?.filter (·.available), post.head?.filter (·.available) with
  | some p, some n => pre.dropLast ++ p.withSize (p.size + (b.size + n.size)) :: post.tail
  | some p, none => pre.dropLast ++ p.withSize (p.size + b.size) :: post
  | none, some n => pre ++ (b.withAvailable true).withSize (b.size + n.size) :: post.tail
  | none, none => pre ++ b.withAvailable true :: post

namespace BlockTable

def grow (heap : Heap) (t : BlockTable) (base : ℤ) : Checked BlockTable := do
  let c ← AddressSpaceAllocator.growCapacity base
  if heap.grants (arrayBytes c) then .ok { t with room := c.toNat, capacity := c }
  else .error .outOfMemory

/-- Grow when `full`; then there must be room for `k` more entries. -/
def reserve (heap : Heap) (t : BlockTable) (full : Prop) [Decidable full] (base : ℤ) (k : ℕ) :
    Checked BlockTable := do
  let t ← (if full then t.grow heap base else pure t)
  if t.blocks.length + k ≤ t.room then .ok t else .error .outOfBounds

def allocate (heap : Heap) (t : BlockTable) (size : ℕ) : Checked (BlockTable × ℕ) := do
  check (∀ b ∈ t.blocks, 0 < b.size)
  match bestFit size t.blocks with
  | none => return (t, badOffset)
  | some i =>
    let b ← readAt t.blocks i
    if size < b.size then
      let t ← t.reserve heap ((t.blocks.length : ℤ) = t.capacity) t.capacity 1
      return ({ t with blocks := splice t.blocks i (cutTail b size) },
        wrapNat 64 (b.offset + (b.size - size)))
    else return ({ t with blocks := splice t.blocks i [b.withAvailable false] }, b.offset)

def allocateFixed (heap : Heap) (t : BlockTable) (size offset : ℕ) : Checked (BlockTable × ℤ) := do
  match fitAtOffset size offset t.blocks with
  | none => return (t, -1)
  | some i =>
    let b ← readAt t.blocks i
    if size < b.size then
      let pieces ← cutAt b size offset
      let extra := pieces.length - 2
      let t ← t.reserve heap (t.capacity ≤ ((t.blocks.length + extra : ℕ) : ℤ))
        (wrapInt (t.capacity + extra)) (1 + extra)
      return ({ t with blocks := splice t.blocks i pieces }, 0)
    else return ({ t with blocks := splice t.blocks i [b.withAvailable false] }, 0)

def deallocate (t : BlockTable) (offset : ℕ) : Checked (BlockTable × ℕ) :=
  match t.blocks.findIdx? (·.offset = offset) with
  | none => .ok (t, EINVAL)
  | some i => do
    let b ← readAt t.blocks i
    if b.available then return (t, EINVAL)
    else return ({ t with blocks := released (t.blocks.take i) b (t.blocks.drop (i + 1)) }, 0)

def reset (t : BlockTable) : BlockTable :=
  { t with blocks := [.ofFields 0 t.totalBytes true] }

def call (t : BlockTable) : Op → Checked (BlockTable × ℤ)
  | .allocate heap size => do
    let (t, offset) ← t.allocate heap size
    return (t, offset)
  | .allocateFixed heap size offset => t.allocateFixed heap size offset
  | .deallocate offset => do
    let (t, r) ← t.deallocate offset
    return (t, r)
  | .reset => .ok (t.reset, 0)

end BlockTable

/-! ### Releasing

The four ways a released block is merged. -/

def NotEndAvailable (bs : List AddressBlock) : Prop := ∀ p ∈ bs.getLast?, p.available = false

def NotStartAvailable (bs : List AddressBlock) : Prop := ∀ n ∈ bs.head?, n.available = false

theorem end_available_cases (bs : List AddressBlock) :
    NotEndAvailable bs ∨ ∃ pre p, bs = pre ++ [p] ∧ p.available = true := by
  rcases eq_nil_or_concat' bs with rfl | ⟨pre, p, rfl⟩
  · exact .inl (by simp [NotEndAvailable])
  · cases hp : p.available with
    | false => exact .inl (by simpa [NotEndAvailable] using hp)
    | true => exact .inr ⟨pre, p, rfl, hp⟩

theorem start_available_cases (bs : List AddressBlock) :
    NotStartAvailable bs ∨ ∃ n post, bs = n :: post ∧ n.available = true := by
  cases bs with
  | nil => exact .inl (by simp [NotStartAvailable])
  | cons n post =>
    cases hn : n.available with
    | false => exact .inl (by simpa [NotStartAvailable] using hn)
    | true => exact .inr ⟨n, post, rfl, hn⟩

section Released

variable {pre post : List AddressBlock} {p b n : AddressBlock}

theorem NotEndAvailable.filter (h : NotEndAvailable pre) :
    pre.getLast?.filter (·.available) = none := by
  rw [filter_eq_none_iff]
  exact fun p hp => by simp [h p hp]

theorem NotStartAvailable.filter (h : NotStartAvailable post) :
    post.head?.filter (·.available) = none := by
  rw [filter_eq_none_iff]
  exact fun n hn => by simp [h n hn]

theorem released_both (hp : p.available = true) (hn : n.available = true) :
    released (pre ++ [p]) b (n :: post) =
      pre ++ p.withSize (p.size + (b.size + n.size)) :: post := by
  simp [released, filter_some, hp, hn]

theorem released_before (hp : p.available = true) (hn : NotStartAvailable post) :
    released (pre ++ [p]) b post = pre ++ p.withSize (p.size + b.size) :: post := by
  simp [released, hn.filter, filter_some, hp]

theorem released_after (hp : NotEndAvailable pre) (hn : n.available = true) :
    released pre b (n :: post) =
      pre ++ (b.withAvailable true).withSize (b.size + n.size) :: post := by
  simp [released, hp.filter, filter_some, hn]

theorem released_neither (hp : NotEndAvailable pre) (hn : NotStartAvailable post) :
    released pre b post = pre ++ b.withAvailable true :: post := by
  simp [released, hp.filter, hn.filter]

theorem released_length (pre : List AddressBlock) (b : AddressBlock) (post : List AddressBlock) :
    1 ≤ (released pre b post).length ∧
      (released pre b post).length ≤ (pre ++ b :: post).length := by
  rcases end_available_cases pre with hp | ⟨pre, p, rfl, hp⟩
  · rcases start_available_cases post with hn | ⟨n, post, rfl, hn⟩
    · simp only [released_neither hp hn, length_append, length_cons]
      omega
    · simp only [released_after hp hn, length_append, length_cons]
      omega
  · rcases start_available_cases post with hn | ⟨n, post, rfl, hn⟩
    · simp only [released_before hp hn, length_append, length_cons]
      omega
    · simp only [released_both hp hn, length_append, length_cons]
      omega

end Released

/-! ### The searches -/

variable {size i offset : ℕ}

section Search

open AddressSpaceAllocator

theorem findAvailableLoop_eq (size : ℕ) (bs junk : List AddressBlock) (i : ℕ)
    (best : Option (ℕ × ℕ)) :
    findAvailableLoop size (bs ++ junk) bs.length i best = check (∀ b ∈ bs, 0 < b.size) >>= fun _ =>
        .ok ((bestFitFrom size bs i best).map Prod.fst) := by
  induction bs generalizing i best with
  | nil => simp [findAvailableLoop, bestFitFrom]
  | cons b bs ih =>
    simp only [cons_append, length_cons, findAvailableLoop, bestFitFrom, ih]
    by_cases hb : 0 < b.size
    · have hall : check (∀ c ∈ b :: bs, 0 < c.size) = check (∀ c ∈ bs, 0 < c.size) := by
        simp [check, hb]
      rw [check_of hb, hall]
      cases best with
      | none => split_ifs <;> rfl
      | some best => split_ifs <;> rfl
    · have hall : ¬ ∀ c ∈ b :: bs, 0 < c.size := fun h => hb (h b (by simp))
      rw [check_of_not hb, check_of_not hall]
      rfl

theorem findAvailableAtOffsetLoop_eq (size offset : ℕ) (bs junk : List AddressBlock) (i : ℕ) :
    findAvailableAtOffsetLoop size offset (bs ++ junk) bs.length i =
      .ok ((fitAtOffset size offset bs).map (i + ·)) := by
  induction bs generalizing i with
  | nil => simp [findAvailableAtOffsetLoop, fitAtOffset]
  | cons b bs ih =>
    simp only [cons_append, length_cons, findAvailableAtOffsetLoop, fitAtOffset, ih,
      matchesOffset, decide_eq_true_eq]
    split_ifs
    · rfl
    · simp
    · cases fitAtOffset size offset bs with
      | none => rfl
      | some j => simp only [map_some]; congr 2; omega

theorem bestFitFrom_spec (size : ℕ) (bs : List AddressBlock) (i : ℕ) (best : Option (ℕ × ℕ)) :
    match bestFitFrom size bs i best with
    | none => best = none ∧ ∀ b ∈ bs, b.available → b.size < size
    | some (j, _) => (∃ s, best = some (j, s)) ∨
        ∃ k b, j = i + k ∧ bs[k]? = some b ∧ b.available ∧ size ≤ b.size := by
  induction bs generalizing i best with
  | nil =>
    cases best with
    | none => simp [bestFitFrom]
    | some p => exact .inl ⟨p.2, rfl⟩
  | cons b bs ih =>
    simp only [bestFitFrom]
    split_ifs with hb
    · have := ih (i + 1) (some (i, b.size))
      cases hrest : bestFitFrom size bs (i + 1) (some (i, b.size)) with
      | none => simp [hrest] at this
      | some p =>
        obtain ⟨j, s⟩ := p
        simp only [hrest] at this ⊢
        refine .inr ?_
        rcases this with ⟨s', hs'⟩ | ⟨k, c, hj, hc, hav, hsz⟩
        · obtain ⟨rfl, rfl⟩ : i = j ∧ b.size = s' := by simpa using hs'
          exact ⟨0, b, rfl, rfl, hb.2.1, hb.1⟩
        · exact ⟨k + 1, c, by omega, by simpa using hc, hav, hsz⟩
    · have := ih (i + 1) best
      cases hrest : bestFitFrom size bs (i + 1) best with
      | none =>
        simp only [hrest] at this ⊢
        refine ⟨this.1, fun c hc hav => ?_⟩
        rcases mem_cons.mp hc with rfl | hc
        · by_contra hle
          exact hb ⟨by omega, hav, by simp [this.1]⟩
        · exact this.2 c hc hav
      | some p =>
        simp only [hrest] at this ⊢
        rcases this with h | ⟨k, c, hj, hc, hav, hsz⟩
        · exact .inl h
        · exact .inr ⟨k + 1, c, by omega, by simpa using hc, hav, hsz⟩

variable {bs : List AddressBlock}

theorem bestFit_eq_some (h : bestFit size bs = some i) :
    ∃ pre b post, bs = pre ++ b :: post ∧ i = pre.length ∧ b.available ∧ size ≤ b.size := by
  obtain ⟨⟨j, s⟩, hj, rfl⟩ := map_eq_some_iff.mp h
  have hspec := bestFitFrom_spec size bs 0 none
  simp only [hj] at hspec
  rcases hspec with ⟨_, habs⟩ | ⟨k, b, hk, hb, hav, hsz⟩
  · simp at habs
  · obtain ⟨hlt, rfl⟩ := List.getElem?_eq_some_iff.mp hb
    refine ⟨bs.take k, bs[k], bs.drop (k + 1), ?_, ?_, hav, hsz⟩
    · rw [← drop_eq_getElem_cons hlt, take_append_drop]
    · simp only [length_take]; omega

theorem bestFit_eq_none (h : bestFit size bs = none) : ∀ b ∈ bs, b.available → b.size < size := by
  have hspec := bestFitFrom_spec size bs 0 none
  simp only [map_eq_none_iff.mp h] at hspec
  exact hspec.2

theorem fitAtOffset_eq_some (h : fitAtOffset size offset bs = some i) :
    ∃ pre b post, bs = pre ++ b :: post ∧ i = pre.length ∧ matchesOffset size offset b := by
  induction bs generalizing i with
  | nil => simp [fitAtOffset] at h
  | cons b bs ih =>
    simp only [fitAtOffset] at h
    split_ifs at h with hz hm
    · obtain rfl : 0 = i := by simpa using h
      exact ⟨[], b, bs, rfl, rfl, hm⟩
    · obtain ⟨j, hj, rfl⟩ := map_eq_some_iff.mp h
      obtain ⟨pre, c, post, rfl, rfl, hc⟩ := ih hj
      exact ⟨b :: pre, c, post, rfl, rfl, hc⟩

theorem fitAtOffset_eq_none (hpos : ∀ b ∈ bs, 0 < b.size) (h : fitAtOffset size offset bs = none) :
    ∀ b ∈ bs, ¬ matchesOffset size offset b := by
  induction bs with
  | nil => simp
  | cons b bs ih =>
    have hb := hpos b (by simp)
    simp only [fitAtOffset, if_neg (show ¬ b.size = 0 by omega)] at h
    split_ifs at h with hm
    have hrest := ih (fun c hc => hpos c (mem_cons_of_mem b hc)) (by simpa using h)
    intro c hc
    rcases mem_cons.mp hc with rfl | hc
    · exact hm
    · exact hrest c hc

end Search

end AndroidEmu.AddressSpace
