import AndroidEmu.CS.Ring

/-!
# Vectors of memory ranges

`base/IOVector.cpp`. The three loops handle the same pieces of the entries, from the entry that
`lookup_iovec` finds.
-/

namespace AndroidEmu.Base

open CS List

structure Iovec where
  base : ℕ
  len : ℕ

namespace Iovec

def addresses (v : Iovec) : List ℕ := range' v.base v.len

/-- The entries from the one found on, and where it begins. The source has an `int` index instead
of the rest of the list, so the two agree up to `2 ^ 31` entries. -/
def lookup (offset current : ℕ) : List Iovec → List Iovec × ℕ
  | [] => ([], current)
  | v :: vs =>
    if current ≤ offset ∧ offset < (current + v.len) % 2 ^ 64 then (v :: vs, current)
    else lookup offset ((current + v.len) % 2 ^ 64) vs

/-- What the rounds of a loop handle. -/
def pieces (remaining writeOffset : ℕ) : List Iovec → List Iovec
  | [] => []
  | v :: vs =>
    if remaining = 0 then []
    else
      let toCopy := min remaining (v.len - writeOffset)
      ⟨v.base + writeOffset, toCopy⟩ :: pieces (remaining - toCopy) 0 vs

/-- A loop that does `f` in each round, with the bytes so far, and how many there are at the end. -/
def loop {σ : Type} (f : σ → ℕ → Iovec → σ) (s : σ) (vs : List Iovec) (offset size : ℕ) : σ × ℕ :=
  let found := lookup offset 0 vs
  (pieces size (offset - found.2) found.1).foldl (fun p v => (f p.1 p.2 v, p.2 + v.len)) (s, 0)

/-- `IOVector::copyTo`. -/
def copyTo (memory destination : ℕ → UInt8) : List Iovec → ℕ → ℕ → (ℕ → UInt8) × ℕ :=
  loop (fun d n v => putCells d n (takeCells memory v.base v.len)) destination

/-- `IOVector::copyFrom`. -/
def copyFrom (memory source : ℕ → UInt8) : List Iovec → ℕ → ℕ → (ℕ → UInt8) × ℕ :=
  loop (fun m n v => putCells m v.base (takeCells source n v.len)) memory

/-- `IOVector::appendEntriesTo`. -/
def appendEntriesTo (destination : List Iovec) : List Iovec → ℕ → ℕ → List Iovec × ℕ :=
  loop (fun d _ v => d ++ [v]) destination

/-- The addresses of a range of the concatenation, up to its end. -/
def clipped (vs : List Iovec) (offset size : ℕ) : List ℕ :=
  ((vs.flatMap addresses).drop offset).take size

/-- Bytes are written to addresses one after the other. -/
def scatter (memory : ℕ → UInt8) (as : List ℕ) (bs : List UInt8) : ℕ → UInt8 :=
  (as.zip bs).foldl (fun m p => Function.update m p.1 p.2) memory

variable {vs : List Iovec} {offset : ℕ}

@[simp] theorem length_addresses (v : Iovec) : v.addresses.length = v.len := length_range'

theorem addresses_pieces (n : ℕ) {w : ℕ} (h : ∀ v ∈ vs.head?, w ≤ v.len) :
    (pieces n w vs).flatMap addresses = ((vs.flatMap addresses).drop w).take n := by
  induction vs generalizing n w with
  | nil => simp [pieces]
  | cons v vs ih =>
    have hw : w ≤ v.len := h v rfl
    have hpiece : addresses ⟨v.base + w, min n (v.len - w)⟩ = (v.addresses.drop w).take n := by
      simp only [addresses, drop_range']
      grind
    rw [pieces]
    split
    next hn => simp [hn]
    next =>
      rw [flatMap_cons, ih _ (by simp), drop_zero, hpiece, flatMap_cons,
        drop_append_of_le_length (by simpa), take_append, length_drop, length_addresses]
      congr 2
      omega

/-- The pieces of a range are its addresses. -/
theorem addresses_pieces_lookup (n : ℕ) {current : ℕ} (hcurrent : current ≤ offset)
    (hsum : current + (vs.flatMap addresses).length < 2 ^ 64) :
    (pieces n (offset - (lookup offset current vs).2)
        (lookup offset current vs).1).flatMap addresses =
      ((vs.flatMap addresses).drop (offset - current)).take n := by
  induction vs generalizing current with
  | nil => simp [lookup, pieces]
  | cons v vs ih =>
    rw [flatMap_cons, length_append, length_addresses] at hsum
    rw [lookup, Nat.mod_eq_of_lt (by omega)]
    split
    next => exact addresses_pieces n fun v' hv => by cases hv; omega
    next =>
      rw [ih (by omega) (by omega), flatMap_cons, drop_append, length_addresses, Nat.sub_sub,
        @drop_eq_nil_of_le _ v.addresses _ (by rw [length_addresses]; omega), nil_append]

variable {memory data : ℕ → UInt8} {n : ℕ} {ps : List Iovec}

theorem takeCells_eq (v : Iovec) : takeCells memory v.base v.len = v.addresses.map memory := by
  simp [takeCells, addresses, range'_eq_map_range]

theorem putCells_eq (bs : List UInt8) (b : ℕ) :
    putCells memory b bs = scatter memory (range' b bs.length) bs := by
  induction bs generalizing memory b with
  | nil => rfl
  | cons x bs ih => rw [putCells, ih]; rfl

theorem foldl_copyTo : ps.foldl (fun p v => (putCells p.1 p.2 (takeCells memory v.base v.len),
      p.2 + v.len)) (data, n) = (putCells data n ((ps.flatMap addresses).map memory),
        n + (ps.flatMap addresses).length) := by
  induction ps generalizing data n with
  | nil => rfl
  | cons v ps ih =>
    rw [foldl_cons, ih, flatMap_cons, map_append, putCells_append, takeCells_eq]
    simp [Nat.add_assoc]

theorem foldl_copyFrom : ps.foldl (fun p v => (putCells p.1 v.base (takeCells data p.2 v.len),
      p.2 + v.len)) (memory, n) = (scatter memory (ps.flatMap addresses)
        (takeCells data n (ps.flatMap addresses).length), n + (ps.flatMap addresses).length) := by
  induction ps generalizing memory n with
  | nil => rfl
  | cons v ps ih =>
    rw [foldl_cons, ih, flatMap_cons, length_append, takeCells_add, putCells_eq, length_addresses,
      length_takeCells, scatter, scatter, scatter, zip_append (by simp), foldl_append,
        Nat.add_assoc]
    rfl

theorem foldl_appendEntriesTo (d : List Iovec) : ps.foldl (fun p v => (p.1 ++ [v], p.2 + v.len))
    (d, n) = (d ++ ps, n + (ps.flatMap addresses).length) := by
  induction ps generalizing d n with
  | nil => simp
  | cons v ps ih => simp [ih, Nat.add_assoc]

section

variable (hsum : (vs.flatMap addresses).length < 2 ^ 64)

include hsum

theorem pieces_eq_clipped (offset size : ℕ) :
    (pieces size (offset - (lookup offset 0 vs).2) (lookup offset 0 vs).1).flatMap addresses =
      clipped vs offset size :=
  addresses_pieces_lookup size offset.zero_le (by simpa using hsum)

theorem copyTo_eq (memory data : ℕ → UInt8) (offset size : ℕ) : copyTo memory data vs offset size =
    (putCells data 0 ((clipped vs offset size).map memory), (clipped vs offset size).length) := by
  rw [copyTo, loop, foldl_copyTo, pieces_eq_clipped hsum, Nat.zero_add]

theorem copyFrom_eq (memory data : ℕ → UInt8) (offset size : ℕ) :
    copyFrom memory data vs offset size =
      (scatter memory (clipped vs offset size)
        (takeCells data 0 (clipped vs offset size).length), (clipped vs offset size).length) := by
  rw [copyFrom, loop, foldl_copyFrom, pieces_eq_clipped hsum, Nat.zero_add]

theorem appendEntriesTo_eq (dest : List Iovec) (offset size : ℕ) :
    ∃ new, appendEntriesTo dest vs offset size = (dest ++ new, (clipped vs offset size).length) ∧
      new.flatMap addresses = clipped vs offset size := by
  refine ⟨_, ?_, pieces_eq_clipped hsum offset size⟩
  rw [appendEntriesTo, loop, foldl_appendEntriesTo, pieces_eq_clipped hsum, Nat.zero_add]

end

/-- If the entries have fewer than `2 ^ 64` bytes together, each function handles the bytes of the
range and no others. -/
theorem iovector_ranges (vs dest : List Iovec) (memory data : ℕ → UInt8) (offset size : ℕ)
    (hsum : (vs.flatMap addresses).length < 2 ^ 64) :
    let r := clipped vs offset size
    copyTo memory data vs offset size = (putCells data 0 (r.map memory), r.length) ∧
      copyFrom memory data vs offset size =
        (scatter memory r (takeCells data 0 r.length), r.length) ∧
      ∃ new, appendEntriesTo dest vs offset size = (dest ++ new, r.length) ∧
        new.flatMap addresses = r :=
  ⟨copyTo_eq hsum memory data offset size, copyFrom_eq hsum memory data offset size,
    appendEntriesTo_eq hsum dest offset size⟩

/-- A range from the first entry over an empty one into the last. -/
theorem iovector_ranges_three : ∃ new,
    appendEntriesTo [] [⟨100, 4⟩, ⟨7, 0⟩, ⟨102, 4⟩] 3 2 = ([] ++ new, 2) ∧
      new.flatMap addresses = [103, 102] :=
  (iovector_ranges [⟨100, 4⟩, ⟨7, 0⟩, ⟨102, 4⟩] [] (fun _ => 0) (fun _ => 0) 3 2 (by decide)).2.2

/-- The end of the second entry wraps to zero, and no range in it is found. -/
theorem appendEntriesTo_wraps : (clipped [⟨0, 2 ^ 63⟩, ⟨0, 2 ^ 63⟩] (2 ^ 63) 5).length = 5 ∧
    (appendEntriesTo [] [⟨0, 2 ^ 63⟩, ⟨0, 2 ^ 63⟩] (2 ^ 63) 5).2 = 0 := by
  constructor
  · simp [clipped]
  · rfl

/-! ### Ranges of ranges -/

/-- The indices of the entries fit the source's `int` and the bytes together a `size_t`. -/
def Countable (vs : List Iovec) : Prop :=
  vs.length < 2 ^ 31 ∧ (vs.flatMap addresses).length < 2 ^ 64

instance (vs : List Iovec) : Decidable (Countable vs) := inferInstanceAs (Decidable (_ ∧ _))

theorem scatter_of_not_mem {as : List ℕ} {a : ℕ} (ha : a ∉ as) (bs : List UInt8) :
    scatter memory as bs a = memory a := by
  induction as generalizing memory bs with
  | nil => rfl
  | cons b as ih =>
    rw [mem_cons, not_or] at ha
    cases bs with
    | nil => rfl
    | cons c bs => exact (ih ha.2 bs).trans (Function.update_of_ne ha.1 c memory)

theorem map_scatter {as : List ℕ} (hnodup : as.Nodup) {bs : List UInt8}
    (hlen : bs.length = as.length) : as.map (scatter memory as bs) = bs := by
  induction as generalizing memory bs with
  | nil => exact (length_eq_zero_iff.mp hlen).symm
  | cons a as ih =>
    obtain ⟨c, bs, rfl⟩ := exists_cons_of_length_eq_add_one hlen
    obtain ⟨ha, hnodup⟩ := nodup_cons.mp hnodup
    have hhead : scatter memory (a :: as) (c :: bs) a = c :=
      (scatter_of_not_mem ha bs).trans (Function.update_self a c memory)
    rw [map_cons, hhead]
    exact congrArg (c :: ·) (ih hnodup (by simpa using hlen))

/-- What is copied to a range in which no address occurs twice is copied back from it, and bytes
outside the range stay as they are. -/
theorem copyTo_copyFrom (vs : List Iovec) (memory data buffer : ℕ → UInt8) (offset size : ℕ)
    (hvs : Countable vs) (hnodup : (clipped vs offset size).Nodup) :
    let r := clipped vs offset size
    let written := (copyFrom memory data vs offset size).1
    copyTo written buffer vs offset size =
      (putCells buffer 0 (takeCells data 0 r.length), r.length) ∧
        ∀ a ∉ r, written a = memory a := by
  intro r written
  have hwritten : written = scatter memory r (takeCells data 0 r.length) :=
    congrArg Prod.fst (copyFrom_eq hvs.2 memory data offset size)
  constructor
  · rw [copyTo_eq hvs.2, hwritten, map_scatter hnodup (length_takeCells ..)]
  · intro a ha
    rw [hwritten, scatter_of_not_mem ha]

theorem copyTo_copyFrom_two : (copyTo (copyFrom (fun _ => 0) UInt8.ofNat
      [⟨100, 2⟩, ⟨7, 3⟩] 1 3).1 (fun _ => 9) [⟨100, 2⟩, ⟨7, 3⟩] 1 3) =
    (putCells (fun _ => 9) 0 [0, 1, 2], 3) :=
  (copyTo_copyFrom [⟨100, 2⟩, ⟨7, 3⟩] (fun _ => 0) UInt8.ofNat (fun _ => 9) 1 3
    (by decide) (by decide)).1

/-- A range of the entries made for a range is a range of the whole. -/
theorem copyTo_appendEntriesTo (vs : List Iovec) (memory buffer : ℕ → UInt8)
    (offset size offset' size' : ℕ) (hvs : Countable vs) :
    copyTo memory buffer (appendEntriesTo [] vs offset size).1 offset' size' =
      copyTo memory buffer vs (offset + offset') (min size' (size - offset')) := by
  obtain ⟨new, hnew, hpart⟩ := appendEntriesTo_eq hvs.2 [] offset size
  have hsum := hvs.2
  have hclip :
      clipped new offset' size' = clipped vs (offset + offset') (min size' (size - offset')) := by
    rw [clipped, hpart, clipped, clipped, drop_take, take_take, drop_drop]
  rw [hnew, nil_append, copyTo_eq, hclip, copyTo_eq hsum]
  -- the part is no longer than the whole, so its size does not overflow
  rw [hpart, clipped, length_take, length_drop]
  omega

theorem copyTo_appendEntriesTo_two :
    copyTo UInt8.ofNat (fun _ => 0) (appendEntriesTo [] [⟨100, 4⟩, ⟨7, 5⟩] 2 6).1 1 9 =
      copyTo UInt8.ofNat (fun _ => 0) [⟨100, 4⟩, ⟨7, 5⟩] 3 5 :=
  copyTo_appendEntriesTo [⟨100, 4⟩, ⟨7, 5⟩] UInt8.ofNat (fun _ => 0) 2 6 1 9 (by decide)

end Iovec

end AndroidEmu.Base
