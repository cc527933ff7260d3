import AndroidEmu.CS.Memory

/-!
# Start codes of H.264 streams

`H264NaluParser::getNextStartCodeHeader` shifts the bytes through a window of 32 bits. It is first
filled with three bytes, and these are compared only if there are no others, so a buffer that begins
with a three-byte code is searched from its second byte.
-/

namespace AndroidEmu.HostCommon

open CS Option Nat

/-! ### The parser -/

def shiftIn (window : UInt32) (byte : UInt8) : UInt32 := (window <<< 8) ||| byte.toUInt32

/-- The loop, with `remaining` bytes to go. Positions are relative to the buffer. -/
def scanFrame (frame : List UInt8) (window : UInt32) : ℕ → Checked (Option ℕ)
  | 0 => .ok none
  | remaining + 1 => do
    let byte ← readAt frame (frame.length - (remaining + 1))
    let window := shiftIn window byte
    if window ^^^ 0x00000001 = 0 then
      return some (frame.length - (remaining + 1) - 3)
    else if (window &&& 0x00ffffff) ^^^ 0x00000001 = 0 then
      return some (frame.length - (remaining + 1) - 2)
    else scanFrame frame window remaining

/-- `H264NaluParser::getNextStartCodeHeader`. -/
def getNextStartCodeHeader (frame : List UInt8) : Checked (Option ℕ) :=
  if frame.length < 3 then .ok none
  else do
    let b0 ← readAt frame 0
    let b1 ← readAt frame 1
    let b2 ← readAt frame 2
    let window : UInt32 := (b0.toUInt32 <<< 16) ||| (b1.toUInt32 <<< 8) ||| b2.toUInt32
    if frame.length = 3 then
      if window ^^^ 0x00000001 = 0 then return some 0 else return none
    else scanFrame frame window (frame.length - 3)

/-- The type, and where `data` is set to, if it is. The type is one of the 32 that its five bits can
name, or `Undefined`, here `none`. -/
def getFrameNaluType (frame : List UInt8) : Checked (Option UInt8 × Option ℕ) :=
  if frame.length < 4 then .ok (none, none)
  else do
    let b0 ← readAt frame 0
    let b1 ← readAt frame 1
    if b0 ≠ 0 ∨ b1 ≠ 0 then return (none, none)
    let b2 ← readAt frame 2
    let b3 ← readAt frame 3
    if b2 = 0 ∧ b3 = 1 then
      if frame.length = 4 then return (none, none)
      let b4 ← readAt frame 4
      return (some (0x1f &&& b4), some 4)
    if b2 = 1 then return (some (0x1f &&& b3), some 3)
    return (none, none)

/-! ### Start codes -/

/-- The three-byte code stands at position `i`. -/
def ThreeByteCode (frame : List UInt8) (i : ℕ) : Prop :=
  frame[i]? = some 0 ∧ frame[i + 1]? = some 0 ∧ frame[i + 2]? = some 1

def FourByteCode (frame : List UInt8) (i : ℕ) : Prop :=
  frame[i]? = some 0 ∧ ThreeByteCode frame (i + 1)

def StartCode (frame : List UInt8) (i : ℕ) : Prop := ThreeByteCode frame i ∨ FourByteCode frame i

instance (frame : List UInt8) : DecidablePred (ThreeByteCode frame) := fun _ =>
  inferInstanceAs (Decidable (_ ∧ _ ∧ _))

instance (frame : List UInt8) : DecidablePred (FourByteCode frame) := fun _ =>
  inferInstanceAs (Decidable (_ ∧ _))

instance (frame : List UInt8) : DecidablePred (StartCode frame) := fun _ =>
  inferInstanceAs (Decidable (_ ∨ _))

/-- The answer is the position of the leftmost start code, or that there is none. -/
def Leftmost (frame : List UInt8) : Option ℕ → Prop
  | some i => StartCode frame i ∧ ∀ j < i, ¬ StartCode frame j
  | none => ∀ j, ¬ StartCode frame j

/-- The same from position `m` on. -/
def LeftmostFrom (frame : List UInt8) (m : ℕ) : Option ℕ → Prop
  | some i => m ≤ i ∧ StartCode frame i ∧ ∀ j, m ≤ j → j < i → ¬ StartCode frame j
  | none => ∀ j, m ≤ j → ¬ StartCode frame j

theorem leftmostFrom_zero {frame : List UInt8} {r : Option ℕ} (h : LeftmostFrom frame 0 r) :
    Leftmost frame r := by
  cases r with
  | none => exact fun j => h j (zero_le j)
  | some i => exact ⟨h.2.1, fun j => h.2.2 j (zero_le j)⟩

variable {frame : List UInt8} {i j k : ℕ}

theorem ThreeByteCode.lt (h : ThreeByteCode frame i) : i + 2 < frame.length := by
  obtain ⟨hlt, _⟩ := List.getElem?_eq_some_iff.mp h.2.2
  exact hlt

/-! ### The window -/

theorem toNat_shiftIn (window : UInt32) (byte : UInt8) :
    (shiftIn window byte).toNat = window.toNat % 2 ^ 24 * 256 + byte.toNat := by
  have hbyte : byte.toNat < 2 ^ 8 := byte.toNat_lt
  have hshift : window.toNat <<< 8 % 2 ^ 32 = (window.toNat % 2 ^ 24) <<< 8 := by omega
  simp only [shiftIn, UInt32.toNat_or, UInt32.toNat_shiftLeft, UInt8.toNat_toUInt32]
  rw [show (8 : UInt32).toNat % 32 = 8 from rfl, hshift, ← shiftLeft_add_eq_or_of_lt hbyte,
    shiftLeft_eq]

theorem toNat_firstWindow (b0 b1 b2 : UInt8) :
    ((b0.toUInt32 <<< 16) ||| (b1.toUInt32 <<< 8) ||| b2.toUInt32).toNat =
      b0.toNat * 65536 + b1.toNat * 256 + b2.toNat := by
  have h0 : b0.toNat < 2 ^ 8 := b0.toNat_lt
  have h1 : b1.toNat < 2 ^ 8 := b1.toNat_lt
  have h2 : b2.toNat < 2 ^ 8 := b2.toNat_lt
  have hlow : b1.toNat <<< 8 + b2.toNat < 2 ^ 16 := by omega
  -- no bits are lost in the shifts
  have hshift0 : b0.toNat <<< 16 % 2 ^ 32 = b0.toNat <<< 16 := by omega
  have hshift1 : b1.toNat <<< 8 % 2 ^ 32 = b1.toNat <<< 8 := by omega
  simp only [UInt32.or_assoc, UInt32.toNat_or, UInt32.toNat_shiftLeft, UInt8.toNat_toUInt32]
  rw [show (16 : UInt32).toNat % 32 = 16 from rfl, show (8 : UInt32).toNat % 32 = 8 from rfl,
    hshift0, hshift1, ← shiftLeft_add_eq_or_of_lt h2, ← shiftLeft_add_eq_or_of_lt hlow,
    shiftLeft_eq, shiftLeft_eq]
  omega

theorem xor_one_eq_zero_iff (window : UInt32) : window ^^^ 0x00000001 = 0 ↔ window.toNat = 1 := by
  rw [UInt32.xor_eq_zero_iff, ← UInt32.toNat_inj]
  rfl

theorem low_xor_one_eq_zero_iff (window : UInt32) :
    (window &&& 0x00ffffff) ^^^ 0x00000001 = 0 ↔ window.toNat % 2 ^ 24 = 1 := by
  rw [xor_one_eq_zero_iff, UInt32.toNat_and, show (0x00ffffff : UInt32).toNat = 2 ^ 24 - 1 from rfl,
    and_two_pow_sub_one_eq_mod]

/-- The window shows the three bytes before position `k`. -/
def Shows (frame : List UInt8) (k : ℕ) (window : UInt32) : Prop :=
  ∃ x y z, frame[k - 3]? = some x ∧ frame[k - 2]? = some y ∧ frame[k - 1]? = some z ∧
    window.toNat % 2 ^ 24 = x.toNat * 65536 + y.toNat * 256 + z.toNat

variable {byte b : UInt8}

theorem Shows.shiftIn {window : UInt32} (h : Shows frame k window) (hk : 3 ≤ k)
    (hbyte : frame[k]? = some byte) : Shows frame (k + 1) (shiftIn window byte) := by
  obtain ⟨x, y, z, hx, hy, hz, hwindow⟩ := h
  have := y.toNat_lt
  have := z.toNat_lt
  have := byte.toNat_lt
  refine ⟨y, z, byte, ?_, ?_, hbyte, ?_⟩
  · rwa [show k + 1 - 3 = k - 2 by omega]
  · rwa [show k + 1 - 2 = k - 1 by omega]
  · rw [toNat_shiftIn, hwindow]
    omega

theorem byte_eq_zero_iff : b = 0 ↔ b.toNat = 0 := by
  rw [← UInt8.toNat_inj]
  rfl

theorem byte_eq_one_iff : b = 1 ↔ b.toNat = 1 := by
  rw [← UInt8.toNat_inj]
  rfl

theorem Shows.codes {window : UInt32} (h : Shows frame k window) (hk : 3 ≤ k)
    (hbyte : frame[k]? = some byte) :
    (HostCommon.shiftIn window byte ^^^ 0x00000001 = 0 ↔ FourByteCode frame (k - 3)) ∧
      ((HostCommon.shiftIn window byte &&& 0x00ffffff) ^^^ 0x00000001 = 0 ↔
        ThreeByteCode frame (k - 2)) := by
  obtain ⟨x, y, z, hx, hy, hz, hwindow⟩ := h
  have := y.toNat_lt
  have := z.toNat_lt
  have := byte.toNat_lt
  have hthree : ThreeByteCode frame (k - 2) ↔ y.toNat = 0 ∧ z.toNat = 0 ∧ byte.toNat = 1 := by
    unfold ThreeByteCode
    rw [show k - 2 + 1 = k - 1 by omega, show k - 2 + 2 = k by omega, hy, hz, hbyte, some_inj,
      some_inj, some_inj, byte_eq_zero_iff, byte_eq_zero_iff, byte_eq_one_iff]
  have hfour : FourByteCode frame (k - 3) ↔ x.toNat = 0 ∧ ThreeByteCode frame (k - 2) := by
    unfold FourByteCode
    rw [show k - 3 + 1 = k - 2 by omega, hx, some_inj, byte_eq_zero_iff]
  constructor
  · rw [xor_one_eq_zero_iff, toNat_shiftIn, hwindow, hfour, hthree]
    omega
  · rw [low_xor_one_eq_zero_iff, toNat_shiftIn, hwindow, hthree]
    omega

/-! ### The search -/

/-- The loop finds the leftmost code from `m` on, if no three-byte code from there on lies in the
bytes before and no four-byte code begins before `m`. -/
theorem scan_leftmost {m : ℕ} (hfour : ∀ j < m, ¬ FourByteCode frame j) (remaining : ℕ) :
    ∀ {window : UInt32} {k : ℕ}, k + remaining = frame.length → 3 ≤ k → m + 2 ≤ k →
      Shows frame k window → (∀ j, m ≤ j → j + 3 ≤ k → ¬ ThreeByteCode frame j) →
      ∃ r, scanFrame frame window remaining = .ok r ∧ LeftmostFrom frame m r := by
  induction remaining with
  | zero =>
    intro window k hlen _ _ _ hnone
    refine ⟨none, rfl, fun j hj hcode => ?_⟩
    rcases hcode with hthree | ⟨_, hthree⟩
    · exact hnone j hj (by have := hthree.lt; omega) hthree
    · exact hnone (j + 1) (by omega) (by have := hthree.lt; omega) hthree
  | succ remaining ih =>
    intro window k hlen hk hm hshows hnone
    have hplace : frame.length - (remaining + 1) = k := by omega
    obtain ⟨byte, hbyte⟩ : ∃ byte, frame[k]? = some byte :=
      ⟨_, List.getElem?_eq_getElem (by omega)⟩
    obtain ⟨hfour_iff, hthree_iff⟩ := hshows.codes hk hbyte
    -- no code begins before the bytes that are compared now
    have hbefore : ∀ j, m ≤ j → j < k - 3 → ¬ StartCode frame j := by
      rintro j hj hlt (hthree | ⟨_, hthree⟩)
      · exact hnone j hj (by omega) hthree
      · exact hnone (j + 1) (by omega) (by omega) hthree
    simp only [scanFrame, hplace, readAt_of_getElem? hbyte, Checked.ok_bind]
    split_ifs with hwindow hlow
    · have hcode := hfour_iff.mp hwindow
      refine ⟨_, rfl, ?_, .inr hcode, hbefore⟩
      by_contra hlt
      exact hfour _ (by omega) hcode
    · refine ⟨_, rfl, by omega, .inl (hthree_iff.mp hlow), ?_⟩
      rintro j hj hlt (hthree | hcode)
      · exact hnone j hj (by omega) hthree
      · rcases lt_or_ge j (k - 3) with hj' | hj'
        · exact hbefore j hj hj' (.inr hcode)
        · have heq : j = k - 3 := by omega
          exact hwindow (hfour_iff.mpr (heq ▸ hcode))
    · apply ih (k := k + 1) (by omega) (by omega) (by omega) (hshows.shiftIn hk hbyte)
      intro j hj hle hthree
      rcases lt_or_ge j (k - 2) with hj' | hj'
      · exact hnone j hj (by omega) hthree
      · have heq : j = k - 2 := by omega
        exact hlow (hthree_iff.mpr (heq ▸ hthree))

theorem leftmost_of_length_le (hlen : frame.length ≤ 3) :
    Leftmost frame (if ThreeByteCode frame 0 then some 0 else none) := by
  have honly : ∀ j, StartCode frame j → j = 0 ∧ ThreeByteCode frame 0 := by
    rintro j (hthree | ⟨_, hthree⟩)
    · have := hthree.lt
      obtain rfl : j = 0 := by omega
      exact ⟨rfl, hthree⟩
    · have := hthree.lt
      omega
  split_ifs with hcode
  · exact ⟨.inl hcode, fun j hj => by omega⟩
  · exact fun j hj => hcode (honly j hj).2

theorem getNextStartCodeHeader_of_le (hlen : frame.length ≤ 3) :
    getNextStartCodeHeader frame = .ok (if ThreeByteCode frame 0 then some 0 else none) := by
  rcases lt_or_ge frame.length 3 with hshort | hlong
  · have hcode : ¬ ThreeByteCode frame 0 := fun h => by
      have := h.lt
      omega
    rw [if_neg hcode]
    exact if_pos hshort
  obtain ⟨x, y, z, rfl⟩ := List.length_eq_three.mp (le_antisymm hlen hlong)
  have hcode : ThreeByteCode [x, y, z] 0 ↔
      ((x.toUInt32 <<< 16) ||| (y.toUInt32 <<< 8) ||| z.toUInt32) ^^^ 0x00000001 = 0 := by
    rw [xor_one_eq_zero_iff, toNat_firstWindow]
    change some x = some 0 ∧ some y = some 0 ∧ some z = some 1 ↔ _
    rw [some_inj, some_inj, some_inj, byte_eq_zero_iff, byte_eq_zero_iff, byte_eq_one_iff]
    omega
  by_cases h : ThreeByteCode [x, y, z] 0
  · rw [if_pos h]
    exact if_pos (hcode.mp h)
  · rw [if_neg h]
    exact if_neg (fun hwindow => h (hcode.mpr hwindow))

/-- With more than three bytes, the search is right from the second byte on, and from the first
one if no three-byte code stands there. -/
theorem getNextStartCodeHeader_of_lt (hlen : 3 < frame.length) {m : ℕ}
    (hm : m = if ThreeByteCode frame 0 then 1 else 0) :
    ∃ r, getNextStartCodeHeader frame = .ok r ∧ LeftmostFrom frame m r := by
  obtain ⟨x, hx⟩ : ∃ x, frame[0]? = some x := ⟨_, List.getElem?_eq_getElem (by omega)⟩
  obtain ⟨y, hy⟩ : ∃ y, frame[1]? = some y := ⟨_, List.getElem?_eq_getElem (by omega)⟩
  obtain ⟨z, hz⟩ : ∃ z, frame[2]? = some z := ⟨_, List.getElem?_eq_getElem (by omega)⟩
  have hshows : Shows frame 3 ((x.toUInt32 <<< 16) ||| (y.toUInt32 <<< 8) ||| z.toUInt32) := by
    have := x.toNat_lt
    have := y.toNat_lt
    have := z.toNat_lt
    refine ⟨x, y, z, hx, hy, hz, ?_⟩
    rw [toNat_firstWindow]
    omega
  unfold getNextStartCodeHeader
  rw [if_neg (by omega), readAt_of_getElem? hx, readAt_of_getElem? hy, readAt_of_getElem? hz]
  simp only [Checked.ok_bind]
  rw [if_neg (by omega)]
  apply scan_leftmost _ _ (by omega) le_rfl (by split_ifs at hm <;> omega) hshows
  · intro j hj hle hthree
    obtain rfl : j = 0 := by omega
    rw [if_pos hthree] at hm
    omega
  · -- the third byte of a three-byte code is not zero
    intro j hj hfour
    split_ifs at hm with hcode
    · obtain rfl : j = 0 := by omega
      have hthird := hfour.2.2.1
      rw [hcode.2.2] at hthird
      cases hthird
    · omega

/-- The search returns the leftmost start code unless the buffer begins with a three-byte one and
goes on. -/
theorem getNextStartCodeHeader_leftmost_iff (frame : List UInt8) :
    (∃ r, getNextStartCodeHeader frame = .ok r ∧ Leftmost frame r) ↔
      ¬ (3 < frame.length ∧ ThreeByteCode frame 0) := by
  rcases lt_or_ge 3 frame.length with hlen | hlen
  · obtain ⟨r, hr, hleft⟩ := getNextStartCodeHeader_of_lt hlen rfl
    by_cases hcode : ThreeByteCode frame 0
    · -- the code at the start is the leftmost, and is not the answer
      rw [if_pos hcode] at hleft
      refine iff_of_false ?_ (fun h => h ⟨hlen, hcode⟩)
      rintro ⟨r', hr', hleft'⟩
      obtain rfl : r = r' := by
        rw [hr] at hr'
        exact Except.ok.inj hr'
      cases r with
      | none => exact hleft' 0 (.inl hcode)
      | some i => exact hleft'.2 0 hleft.1 (.inl hcode)
    · rw [if_neg hcode] at hleft
      exact iff_of_true ⟨r, hr, leftmostFrom_zero hleft⟩ fun h => hcode h.2
  · exact iff_of_true ⟨_, getNextStartCodeHeader_of_le hlen, leftmost_of_length_le hlen⟩
      fun h => by omega

/-- A stream of one unit with a three-byte code: nothing is found, although the unit's type is
read. -/
theorem three_byte_code_is_missed :
    Leftmost [0, 0, 1, 0x65] (some 0) ∧ getNextStartCodeHeader [0, 0, 1, 0x65] = .ok none ∧
      getFrameNaluType [0, 0, 1, 0x65] = .ok (some 5, some 3) := by
  refine ⟨⟨.inl ⟨rfl, rfl, rfl⟩, fun j hj => by omega⟩, by decide, by decide⟩

end AndroidEmu.HostCommon
