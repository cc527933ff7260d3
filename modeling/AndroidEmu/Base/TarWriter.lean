import AndroidEmu.Base.TarReader
import AndroidEmu.CS.ByteStream
import AndroidEmu.CS.Numeral

/-!
# Numbers in tar headers

`itoo` of `android/base/files/TarStream.cpp` writes a number in octal digits with a NUL behind them,
or in base 256 behind a byte of 128. The second form has one byte too many, which is in the next
field. In the long fields the number is also shifted by more bits than it has.
-/

namespace AndroidEmu.Base

open CS List

/-- What `%0*llo` prints of a number that has no more digits than that. -/
def octal : ℕ → ℕ → Bytes
  | 0, _ => []
  | width + 1, val => octal width (val / 8) ++ [UInt8.ofNat (0x30 + val % 8)]

/-- The loop of `itoo`. A shift by the width of the number or more is undefined. -/
def putBase256 (val : ℕ) : ℕ → ℕ → Bytes → Checked Bytes
  | 0, _, mem => .ok mem
  | len + 1, str, mem => do
    if 64 ≤ 8 * len then .error .overflow
    let mem ← writeAt mem (str + 1) (UInt8.ofNat (val >>> (8 * len)))
    putBase256 val len (str + 1) mem

/-- `itoo`, for a field of `len` bytes at `str`. -/
def itoo (mem : Bytes) (str len val : ℕ) : Checked Bytes :=
  if val >>> (3 * (len - 1)) = 0 then memcpy mem str (octal (len - 1) val ++ [0])
  else do
    let mem ← writeAt mem str 0x80
    putBase256 val len str mem

/-- A number is written to a field, wherever it is and whatever follows it, without changing another
byte, and read back. -/
def FieldRoundTrips (len val : ℕ) : Prop :=
  ∀ before field after : Bytes, ∀ next : UInt8, field.length = len →
    ∃ field', itoo (before ++ (field ++ next :: after)) before.length len val =
        .ok (before ++ (field' ++ next :: after)) ∧
      field'.length = len ∧ otoi field' = .ok val

@[simp] theorem length_octal (width val : ℕ) : (octal width val).length = width := by
  induction width generalizing val with
  | zero => rfl
  | succ width ih => simp [octal, ih]

variable {width val len : ℕ}

theorem isOctal_of_mem_octal {c : UInt8} (h : c ∈ octal width val) : isOctal c = true := by
  induction width generalizing val with
  | zero => cases h
  | succ width ih =>
    rw [octal, mem_append, mem_singleton] at h
    rcases h with h | rfl
    · exact ih h
    · have hdigit : ∀ d < 8, isOctal (UInt8.ofNat (0x30 + d)) = true := by decide
      exact hdigit _ (Nat.mod_lt _ (by norm_num))

/-- The digits are those of the number. -/
theorem foldl_octal (h : val < 8 ^ width) (n : ℕ) :
    (octal width val).foldl (fun n c => n * 8 + (c.toNat - 0x30)) n = n * 8 ^ width + val := by
  induction width generalizing val with
  | zero =>
    obtain rfl : val = 0 := by simpa using h
    simp [octal]
  | succ width ih =>
    have hdiv : val / 8 < 8 ^ width := by
      rw [Nat.div_lt_iff_lt_mul (by norm_num), ← pow_succ]
      exact h
    have hdigit : (UInt8.ofNat (0x30 + val % 8)).toNat - 0x30 = val % 8 := by
      rw [UInt8.toNat_ofNat']
      omega
    rw [octal, foldl_append, ih hdiv, foldl_cons, foldl_nil, pow_succ]
    have := Nat.div_add_mod val 8
    nlinarith

theorem octal_ne_nil (h : 0 < width) (val : ℕ) : octal width val ≠ [] := by
  rw [← length_pos_iff, length_octal]
  exact h

/-- Octal digits with a NUL behind them are read. -/
theorem otoi_octal (hwidth : 0 < width) (h : val < 8 ^ width) (h64 : val < 2 ^ 64) :
    otoi (octal width val ++ [0]) = .ok val := by
  obtain ⟨c, cs, hcons⟩ := exists_cons_of_ne_nil (octal_ne_nil hwidth val)
  have hall : ∀ d ∈ c :: cs, isOctal d = true := fun d hd => isOctal_of_mem_octal (hcons ▸ hd)
  have hc := hall c mem_cons_self
  have hplain : ∀ d, isOctal d = true → isSpace d = false ∧ d ≠ 0x2d ∧ d ≠ 0x2b ∧ d ≠ 0x80 := by
    decide +kernel
  obtain ⟨hspace, hminus, hplus, h128⟩ := hplain c hc
  have htake : (c :: (cs ++ [0])).takeWhile isOctal = c :: cs := by
    rw [← cons_append, takeWhile_append_of_pos hall]
    simp [isOctal]
  have hvalue := foldl_octal h 0
  rw [hcons, Nat.zero_mul, Nat.zero_add] at hvalue
  rw [hcons, cons_append, otoi]
  · rw [stoull, dropWhile_cons_of_neg (by simp [hspace])]
    split
    next negative s heq =>
      split at heq
      next hcons' => exact absurd (cons.inj hcons').1 hminus
      next hcons' => exact absurd (cons.inj hcons').1 hplus
      next =>
        cases heq
        rw [htake, if_neg (cons_ne_nil c cs), hvalue]
        exact congrArg Except.ok (wrapNat_of_lt h64)
  · intro s heq
    exact h128 (cons.inj heq).1

theorem shiftRight_octal (val n : ℕ) : val >>> (3 * n) = val / 8 ^ n := by
  rw [Nat.shiftRight_eq_div_pow, pow_mul]
  norm_num

/-- Octal digits are written to a field of the right length. -/
theorem itoo_octal (hlen : 0 < len) (h : val < 8 ^ (len - 1)) {before field after : Bytes}
    (hfield : field.length = len) : itoo (before ++ (field ++ after)) before.length len val =
      .ok (before ++ (octal (len - 1) val ++ [0] ++ after)) := by
  have hshift : val >>> (3 * (len - 1)) = 0 := by rw [shiftRight_octal, Nat.div_eq_of_lt h]
  have hbytes : (octal (len - 1) val ++ [0]).length = len := by
    rw [length_append, length_octal, length_singleton]
    omega
  rw [itoo, if_pos hshift, memcpy_of_le (by simp only [length_append, hbytes]; omega), hbytes,
    take_left, drop_append, drop_append, drop_eq_nil_of_le (by omega),
    drop_eq_nil_of_le (by omega), hfield]
  simp

/-- For the fields of both lengths and each number that has a place in one of them: it is written to
its field only and read back, if and only if it has no more octal digits than the field. -/
theorem field_round_trips_iff (len val : ℕ) (hlen : len = 8 ∨ len = 12) (h64 : val < 2 ^ 64)
    (hval : val < 8 ^ (len - 1) ∨ val < 256 ^ (len - 1)) :
    FieldRoundTrips len val ↔ val < 8 ^ (len - 1) := by
  constructor
  · intro h
    by_contra hlarge
    have hshift : val >>> (3 * (len - 1)) ≠ 0 := by
      rw [shiftRight_octal]
      exact (Nat.div_pos (Nat.le_of_not_lt hlarge) (by positivity)).ne'
    -- the byte behind the field is not the one that is written there
    obtain ⟨next, hnext⟩ : ∃ next : UInt8, next ≠ UInt8.ofNat val :=
      ⟨UInt8.ofNat val + 1, by simp⟩
    obtain ⟨field', hitoo, hfield', -⟩ := h [] (List.replicate len 0) [] next (by simp)
    rw [itoo, if_neg hshift] at hitoo
    rcases hlen with rfl | rfl
    · have hwrite : ∃ bytes : Bytes, bytes.length = 8 ∧
          (do let mem ← writeAt ([] ++ (List.replicate 8 0 ++ [next])) 0 0x80
              putBase256 val 8 0 mem) = .ok (bytes ++ [UInt8.ofNat val]) :=
        ⟨_ :: _ :: _ :: _ :: _ :: _ :: _ :: [_], rfl, rfl⟩
      obtain ⟨bytes, hbytes, hwrite⟩ := hwrite
      rw [length_nil, hwrite, nil_append] at hitoo
      have heq := (append_inj (Except.ok.inj hitoo) (hbytes.trans hfield'.symm)).2
      exact hnext (cons.inj heq).1.symm
    · have hfault : (do let mem ← writeAt ([] ++ (List.replicate 12 0 ++ [next])) 0 0x80
                        putBase256 val 12 0 mem) = .error .overflow := rfl
      cases hitoo
  · intro h before field after next hfield
    refine ⟨octal (len - 1) val ++ [0], itoo_octal (by omega) h hfield, ?_,
      otoi_octal (by omega) h h64⟩
    rw [length_append, length_octal, length_singleton]
    omega

theorem field_round_trips_iff_mode : FieldRoundTrips 8 0o100644 ↔ 0o100644 < 8 ^ 7 :=
  field_round_trips_iff 8 0o100644 (.inl rfl) (by norm_num) (.inl (by norm_num))

/-- The least number that a short field has to hold in base 256 is written over the next field, and
is read as its 256th part. -/
theorem base256_leaves_field : itoo (List.replicate 16 0x30) 0 8 0x200000 =
      .ok ([0x80, 0, 0, 0, 0, 0, 0x20, 0, 0] ++ List.replicate 7 0x30) ∧
      otoi [0x80, 0, 0, 0, 0, 0, 0x20, 0] = .ok 0x2000 ∧ ¬ FieldRoundTrips 8 0x200000 := by
  have hitoo : itoo (List.replicate 16 0x30) 0 8 0x200000 =
      .ok ([0x80, 0, 0, 0, 0, 0, 0x20, 0, 0] ++ List.replicate 7 0x30) := by decide
  refine ⟨hitoo, by decide, fun h => ?_⟩
  obtain ⟨field', hwrite, hlen, -⟩ := h [] (List.replicate 8 0x30) (List.replicate 7 0x30) 0x30 rfl
  have heq := Except.ok.inj (hitoo.symm.trans hwrite)
  have hnext := congrArg (List.drop 8) heq
  rw [nil_append, drop_left' hlen] at hnext
  exact absurd hnext (by decide)

end AndroidEmu.Base
