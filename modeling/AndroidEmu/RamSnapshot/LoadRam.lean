import AndroidEmu.CS.Memory

/-!
# Loading a range of RAM

`RamLoader::loadRam` rounds the first address down to a page but counts the pages by the size alone,
in 32 bits. A range that starts inside a page may lose its last one.
-/

namespace AndroidEmu.RamSnapshot

open CS Nat

def numPages (pageSize size : ℕ) : ℕ := wrapNat 32 (wrapNat 64 (size + pageSize - 1) / pageSize)

/-- `RamLoader::loadRam`: the addresses that `loadRamPage` is called with. The mask is
`~(mPageSize - 1)`. -/
def loadRam (pageSize ptr size : ℕ) : List ℕ :=
  (List.range (numPages pageSize size)).map fun i =>
    wrapNat 64 ((ptr &&& (2 ^ 64 - pageSize)) + i * pageSize)

/-- A page with an address of the range. -/
def IsPageOf (pageSize ptr size page : ℕ) : Prop :=
  pageSize ∣ page ∧ page < ptr + size ∧ ptr < page + pageSize

def pageCount (pageSize ptr size : ℕ) : ℕ := (ptr % pageSize + size + pageSize - 1) / pageSize

theorem and_two_pow_sub {x k : ℕ} (hx : x < 2 ^ 64) (hk : k < 64) :
    x &&& (2 ^ 64 - 2 ^ k) = x / 2 ^ k * 2 ^ k := by
  have hlt : 2 ^ k - 1 < 2 ^ 64 :=
    (Nat.sub_le _ _).trans_lt (Nat.pow_lt_pow_right (by norm_num) hk)
  rw [← Nat.shiftRight_eq_div_pow, ← Nat.shiftLeft_eq]
  apply eq_of_testBit_eq
  intro i
  have hmask := testBit_two_pow_sub_succ hlt i
  rw [Nat.sub_add_cancel Nat.one_le_two_pow, Nat.testBit_two_pow_sub_one] at hmask
  rw [testBit_and, hmask, testBit_shiftLeft, testBit_shiftRight]
  by_cases hi : k ≤ i
  · have hbit : 64 ≤ i → x.testBit i = false := fun hge =>
      Nat.testBit_lt_two_pow (hx.trans_le (Nat.pow_le_pow_right (by norm_num) hge))
    by_cases h64 : i < 64
    · simp [hi, h64]
    · simp [hi, hbit (not_lt.mp h64)]
  · simp [hi, not_le.mp hi]

variable {pageSize ptr size page k : ℕ}

theorem lt_pageCount (hpos : 0 < pageSize) (i : ℕ) :
    i < pageCount pageSize ptr size ↔ i * pageSize < ptr % pageSize + size := by
  rw [pageCount, ← succ_le_iff, le_div_iff_mul_le hpos, Nat.succ_mul]
  omega

theorem numPages_le : numPages pageSize size ≤ pageCount pageSize ptr size := by
  refine (Nat.mod_le _ _).trans (Nat.div_le_div_right ((Nat.mod_le _ _).trans ?_))
  omega

theorem isPageOf_iff (hpos : 0 < pageSize) : IsPageOf pageSize ptr size page ↔
      ∃ i < pageCount pageSize ptr size, page = (ptr / pageSize + i) * pageSize := by
  have hptr := div_add_mod' ptr pageSize
  have hlt := mod_lt ptr hpos
  constructor
  · rintro ⟨⟨j, rfl⟩, hend, hstart⟩
    have hle : ptr / pageSize ≤ j := by
      rw [← Nat.lt_succ_iff, Nat.div_lt_iff_lt_mul hpos, Nat.succ_mul, mul_comm]
      exact hstart
    obtain ⟨i, rfl⟩ := Nat.exists_eq_add_of_le hle
    refine ⟨i, ?_, mul_comm _ _⟩
    rw [lt_pageCount hpos]
    rw [mul_comm, add_mul] at hend
    omega
  · rintro ⟨i, hi, rfl⟩
    rw [lt_pageCount hpos] at hi
    rw [IsPageOf, add_mul]
    exact ⟨⟨ptr / pageSize + i, by ring⟩, by omega, by omega⟩

theorem mem_loadRam (hk : k < 64) (hfits : ptr + size ≤ 2 ^ 64) (hsize : 0 < size) :
    page ∈ loadRam (2 ^ k) ptr size ↔
      ∃ i < numPages (2 ^ k) size, page = (ptr / 2 ^ k + i) * 2 ^ k := by
  have hptr := div_add_mod' ptr (2 ^ k)
  simp only [loadRam, List.mem_map, List.mem_range, and_two_pow_sub (by omega : ptr < 2 ^ 64) hk,
    ← add_mul]
  refine exists_congr fun i => and_congr_right fun hi => ?_
  -- no page of the range wraps around
  have hend : i * 2 ^ k < ptr % 2 ^ k + size :=
    (lt_pageCount (by positivity) i).mp (hi.trans_le numPages_le)
  rw [wrapNat, mod_eq_of_lt (by rw [add_mul]; omega), eq_comm]

/-- The count is right iff it does not wrap around and the places of the first and the last address
in their pages do not add up to a page. -/
theorem numPages_eq_iff (hpos : 0 < pageSize) (hpage : pageSize < 2 ^ 64) (hsize : 0 < size)
    (hlt : size ≤ 2 ^ 64) : numPages pageSize size = pageCount pageSize ptr size ↔
      size + pageSize ≤ 2 ^ 64 ∧ (size + pageSize - 1) / pageSize < 2 ^ 32 ∧
        ptr % pageSize + (size - 1) % pageSize < pageSize := by
  obtain ⟨n, rfl⟩ : ∃ n, size = n + 1 := ⟨size - 1, by omega⟩
  have hceil : (n + 1 + pageSize - 1) / pageSize = n / pageSize + 1 := by
    rw [show n + 1 + pageSize - 1 = n + pageSize by omega, add_div_right _ hpos]
  have hcount : pageCount pageSize ptr (n + 1) =
      (ptr % pageSize + n % pageSize) / pageSize + (n / pageSize + 1) := by
    have hn := mod_add_div n pageSize
    rw [pageCount, ← add_mul_div_left _ _ hpos, mul_add]
    congr 1
    omega
  rw [numPages, wrapNat, wrapNat, hcount, ← div_eq_zero_iff_lt (x := ptr % pageSize + _) hpos,
    Nat.add_sub_cancel]
  rcases le_or_gt (n + 1 + pageSize) (2 ^ 64) with hle | hgt
  · rw [mod_eq_of_lt (a := n + 1 + pageSize - 1) (by omega), hceil]
    generalize (ptr % pageSize + n % pageSize) / pageSize = more, n / pageSize = whole at hcount ⊢
    omega
  have hwrap : (n + 1 + pageSize - 1) % 2 ^ 64 / pageSize = 0 := by
    rw [div_eq_zero_iff_lt hpos]
    omega
  rw [hwrap, zero_mod]
  exact iff_of_false (succ_ne_zero _).symm fun h => absurd h.1 hgt.not_ge

/-- `loadRam` loads the pages of the range and no others iff the pages that the size alone gives
can be counted and the range does not start where it takes one page more. -/
theorem load_ram_pages_iff (k ptr size : ℕ) (hk : k < 64) (hsize : 0 < size)
    (hfits : ptr + size ≤ 2 ^ 64) :
    (∀ page, page ∈ loadRam (2 ^ k) ptr size ↔ IsPageOf (2 ^ k) ptr size page) ↔
      size + 2 ^ k ≤ 2 ^ 64 ∧ (size + 2 ^ k - 1) / 2 ^ k < 2 ^ 32 ∧
        ptr % 2 ^ k + (size - 1) % 2 ^ k < 2 ^ k := by
  have hpos : 0 < 2 ^ k := by positivity
  simp only [mem_loadRam hk hfits hsize, isPageOf_iff hpos]
  rw [← numPages_eq_iff hpos (Nat.pow_lt_pow_right (by norm_num) hk) hsize (by omega)]
  constructor
  · intro h
    refine numPages_le.antisymm (not_lt.mp fun hlt => ?_)
    -- the first page that is not counted
    obtain ⟨i, hi, heq⟩ := (h _).mpr ⟨_, hlt, rfl⟩
    have := eq_of_mul_eq_mul_right hpos heq
    omega
  · intro h page
    rw [h]

/-- Two pages of four bytes, from the third byte on. -/
theorem load_ram_pages_iff_two : (∀ page, page ∈ loadRam (2 ^ 2) 2 6 ↔ IsPageOf (2 ^ 2) 2 6 page) ↔
      6 + 2 ^ 2 ≤ 2 ^ 64 ∧ (6 + 2 ^ 2 - 1) / 2 ^ 2 < 2 ^ 32 ∧ 2 % 2 ^ 2 + (6 - 1) % 2 ^ 2 < 2 ^ 2 :=
  load_ram_pages_iff 2 2 6 (by norm_num) (by norm_num) (by norm_num)

/-- Two bytes around the end of a page: the second page is not loaded. -/
theorem second_page_not_loaded : loadRam (2 ^ 12) 4095 2 = [0] ∧ IsPageOf (2 ^ 12) 4095 2 4096 := by
  refine ⟨by decide +kernel, by decide, by decide, by decide⟩

end AndroidEmu.RamSnapshot
