import Mathlib.Tactic

/-!
# Entity handles

A handle of `EntityManager` is a 64-bit word with three fields: the index of an entry in the
low bits, then a generation, then a type. The widths are parameters that add up to 64.
-/

namespace AndroidEmu.EntityManager

/-- `EntityHandle`. -/
abbrev Handle := BitVec 64

def invalidHandle : Handle := 0

/-- The template parameters, with the assertion made about them. -/
structure Layout where
  indexBits : ℕ
  generationBits : ℕ
  typeBits : ℕ
  total : indexBits + generationBits + typeBits = 64

/-- `EntityManager<32, 16, 16, ..>`. -/
def Layout.usual : Layout := ⟨32, 16, 16, rfl⟩

namespace Layout

variable (l : Layout)

/-- The low bits of a handle. -/
def getHandleIndex (h : Handle) : ℕ := (h &&& ((1#64 <<< l.indexBits) - 1#64)).toNat

/-- The bits behind the index. -/
def getHandleGeneration (h : Handle) : ℕ :=
  ((h >>> l.indexBits) &&& ((1#64 <<< l.generationBits) - 1#64)).toNat

/-- The high bits. -/
def getHandleType (h : Handle) : ℕ :=
  ((h >>> (l.indexBits + l.generationBits)) &&& ((1#64 <<< l.typeBits) - 1#64)).toNat

/-- A handle of its three parts. -/
def makeHandle (index generation type : ℕ) : Handle :=
  BitVec.ofNat 64 index ||| BitVec.ofNat 64 generation <<< l.indexBits |||
    BitVec.ofNat 64 type <<< (l.indexBits + l.generationBits)

def maxElements : ℕ := 2 ^ l.indexBits

def generations : ℕ := 2 ^ l.generationBits

/-! ### Fields -/

theorem toNat_and_mask (x : BitVec 64) {k : ℕ} (hk : k ≤ 64) :
    (x &&& ((1#64 <<< k) - 1#64)).toNat = x.toNat % 2 ^ k := by
  have hmask : ((1#64 <<< k) - 1#64).toNat = 2 ^ k - 1 := by
    rcases Nat.lt_or_eq_of_le hk with hlt | rfl
    · have hpow : 2 ^ k < 2 ^ 64 := Nat.pow_lt_pow_right (by decide) hlt
      have hpos := Nat.two_pow_pos k
      rw [BitVec.toNat_sub, BitVec.toNat_shiftLeft, BitVec.toNat_ofNat, Nat.shiftLeft_eq,
        Nat.mod_eq_of_lt (show 1 < 2 ^ 64 by decide), one_mul, Nat.mod_eq_of_lt hpow]
      omega
    · rfl
  rw [BitVec.toNat_and, hmask, Nat.and_two_pow_sub_one_eq_mod]

theorem pow_dvd_toNat_shiftLeft (x : BitVec 64) {j k : ℕ} (hjk : j ≤ k) (hk : k ≤ 64) :
    2 ^ j ∣ (x <<< k).toNat := by
  rw [BitVec.toNat_shiftLeft, Nat.shiftLeft_eq]
  apply (Nat.dvd_mod_iff (Nat.pow_dvd_pow 2 (hjk.trans hk))).mpr
  exact (Nat.pow_dvd_pow 2 hjk).trans (Nat.dvd_mul_left _ _)

theorem getHandleIndex_eq (h : Handle) : l.getHandleIndex h = h.toNat % l.maxElements := by
  have := l.total
  exact toNat_and_mask h (by omega)

theorem getHandleGeneration_eq (h : Handle) :
    l.getHandleGeneration h = h.toNat / l.maxElements % l.generations := by
  have := l.total
  rw [getHandleGeneration, toNat_and_mask _ (by omega), BitVec.toNat_ushiftRight,
    Nat.shiftRight_eq_div_pow]
  rfl

theorem getHandleIndex_lt (h : Handle) : l.getHandleIndex h < l.maxElements := by
  rw [getHandleIndex_eq]
  exact Nat.mod_lt _ (Nat.two_pow_pos _)

theorem getHandleGeneration_lt (h : Handle) : l.getHandleGeneration h < l.generations := by
  rw [getHandleGeneration_eq]
  exact Nat.mod_lt _ (Nat.two_pow_pos _)

variable {l} {index generation : ℕ}

@[simp] theorem getHandleIndex_makeHandle (hindex : index < l.maxElements) (type : ℕ) :
    l.getHandleIndex (l.makeHandle index generation type) = index := by
  have htotal := l.total
  have hpow : 2 ^ l.indexBits ≤ 2 ^ 64 := Nat.pow_le_pow_right (by decide) (by omega)
  have hlt : index < 2 ^ l.indexBits := hindex
  -- the other fields are zero modulo the number of indices
  have hgen : (BitVec.ofNat 64 generation <<< l.indexBits).toNat % 2 ^ l.indexBits = 0 :=
    Nat.mod_eq_zero_of_dvd (pow_dvd_toNat_shiftLeft _ le_rfl (by omega))
  have htype : (BitVec.ofNat 64 type <<< (l.indexBits + l.generationBits)).toNat %
      2 ^ l.indexBits = 0 :=
    Nat.mod_eq_zero_of_dvd (pow_dvd_toNat_shiftLeft _ (by omega) (by omega))
  rw [getHandleIndex_eq, makeHandle, BitVec.toNat_or, BitVec.toNat_or, maxElements,
    Nat.or_mod_two_pow, Nat.or_mod_two_pow, hgen, htype, Nat.or_zero, Nat.or_zero,
    BitVec.toNat_ofNat, Nat.mod_eq_of_lt (lt_of_lt_of_le hlt hpow), Nat.mod_eq_of_lt hlt]

@[simp] theorem getHandleGeneration_makeHandle (hindex : index < l.maxElements)
    (hgeneration : generation < l.generations) (type : ℕ) :
    l.getHandleGeneration (l.makeHandle index generation type) = generation := by
  have htotal := l.total
  have hpow : 2 ^ l.indexBits ≤ 2 ^ 64 := Nat.pow_le_pow_right (by decide) (by omega)
  have hlt : index < 2 ^ l.indexBits := hindex
  have hglt : generation < 2 ^ l.generationBits := hgeneration
  have hshift : generation * 2 ^ l.indexBits < 2 ^ 64 := by
    calc generation * 2 ^ l.indexBits < 2 ^ l.generationBits * 2 ^ l.indexBits :=
          Nat.mul_lt_mul_of_pos_right hglt (Nat.two_pow_pos _)
      _ = 2 ^ (l.generationBits + l.indexBits) := (pow_add 2 _ _).symm
      _ ≤ 2 ^ 64 := Nat.pow_le_pow_right (by decide) (by omega)
  have hindex0 : (BitVec.ofNat 64 index).toNat >>> l.indexBits = 0 := by
    rw [BitVec.toNat_ofNat, Nat.mod_eq_of_lt (lt_of_lt_of_le hlt hpow), Nat.shiftRight_eq_div_pow,
      Nat.div_eq_of_lt hlt]
  have hgen : (BitVec.ofNat 64 generation <<< l.indexBits).toNat >>> l.indexBits = generation := by
    have hle : generation ≤ generation * 2 ^ l.indexBits :=
      Nat.le_mul_of_pos_right _ (Nat.two_pow_pos _)
    rw [BitVec.toNat_shiftLeft, BitVec.toNat_ofNat, Nat.mod_eq_of_lt (lt_of_le_of_lt hle hshift),
      Nat.shiftLeft_eq, Nat.mod_eq_of_lt hshift, Nat.shiftRight_eq_div_pow,
      Nat.mul_div_cancel _ (Nat.two_pow_pos _)]
  have htype : (BitVec.ofNat 64 type <<< (l.indexBits + l.generationBits)).toNat >>> l.indexBits %
      2 ^ l.generationBits = 0 := by
    obtain ⟨t, ht⟩ := pow_dvd_toNat_shiftLeft (BitVec.ofNat 64 type)
      (le_refl (l.indexBits + l.generationBits)) (by omega)
    rw [ht, Nat.shiftRight_eq_div_pow, pow_add, Nat.mul_assoc,
      Nat.mul_div_cancel_left _ (Nat.two_pow_pos _), Nat.mul_mod_right]
  rw [getHandleGeneration_eq, makeHandle, BitVec.toNat_or, BitVec.toNat_or, maxElements,
    generations, ← Nat.shiftRight_eq_div_pow, Nat.shiftRight_or_distrib, Nat.shiftRight_or_distrib,
    hindex0, hgen, Nat.zero_or, Nat.or_mod_two_pow, htype, Nat.or_zero, Nat.mod_eq_of_lt hglt]

end Layout

end AndroidEmu.EntityManager
