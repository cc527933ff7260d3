import AndroidEmu.CS.Memory
import AndroidEmu.CS.Packing

/-!
# The GSM alphabet

`android/telephony/gsm.c`. Pointers into a text are the bytes from there on. The loops of the source
read characters with `utf8_next` until the end of the text; `utf8Chars` lists what they read. The
table of the source has U+0147 where the default alphabet of 3GPP TS 23.038 has U+00D1, and finds
the character zero in the place of the escape.
-/

namespace AndroidEmu.Telephony

open CS List

/-! ### UTF-8 -/

/-- The continuation bytes of a character. -/
def utf8Continue (c : ℕ) : Bytes → ℕ × Bytes
  | [] => (c, [])
  | b :: p => if b.toNat / 64 = 2 then utf8Continue (c * 64 + b.toNat % 64) p else (c, b :: p)

/-- `utf8_next`. -/
def utf8Next : Bytes → Option (ℕ × Bytes)
  | [] => none
  | b :: p =>
    let c := b.toNat
    if c < 128 then some (c, p)
    else if c / 32 = 6 then some (utf8Continue (c % 32) p)
    else if c / 16 = 14 then some (utf8Continue (c % 16) p)
    else some (utf8Continue (c % 8) p)

/-- The bits that are set by `|` are clear before. -/
def utf8Write (v : ℕ) : Bytes :=
  if v < 0x80 then [UInt8.ofNat v]
  else if v < 0x800 then [UInt8.ofNat (0xc0 + v / 64), UInt8.ofNat (0x80 + v % 64)]
  else if v < 0x10000 then
    [UInt8.ofNat (0xe0 + v / 4096), UInt8.ofNat (0x80 + v / 64 % 64), UInt8.ofNat (0x80 + v % 64)]
  else
    [UInt8.ofNat (0xf0 + v / 262144 % 8), UInt8.ofNat (0x80 + v / 4096 % 64),
      UInt8.ofNat (0x80 + v / 64 % 64), UInt8.ofNat (0x80 + v % 64)]

def utf8 (cs : List ℕ) : Bytes := cs.flatMap utf8Write

/-- At most `n` characters, as `utf8_next` reads them. -/
def utf8CharsOf : ℕ → Bytes → List ℕ
  | 0, _ => []
  | n + 1, p =>
    match utf8Next p with
    | none => []
    | some (c, q) => c :: utf8CharsOf n q

/-- The characters that are read until the end. Each takes a byte or more. -/
def utf8Chars (p : Bytes) : List ℕ := utf8CharsOf p.length p

/-! ### Tables -/

/-- `gsm7bits_to_unicode`. -/
def gsm7bitsToUnicode : List ℕ :=
  [0x40, 0xa3, 0x24, 0xa5, 0xe8, 0xe9, 0xf9, 0xec, 0xf2, 0xc7, 0x0a, 0xd8, 0xf8, 0x0d, 0xc5, 0xe5,
    0x394, 0x5f, 0x3a6, 0x393, 0x39b, 0x3a9, 0x3a0, 0x3a8,
    0x3a3, 0x398, 0x39e, 0, 0xc6, 0xe6, 0xdf, 0xc9,
    0x20, 0x21, 0x22, 0x23, 0xa4, 0x25, 0x26, 0x27, 0x28, 0x29, 0x2a, 0x2b, 0x2c, 0x2d, 0x2e, 0x2f,
    0x30, 0x31, 0x32, 0x33, 0x34, 0x35, 0x36, 0x37, 0x38, 0x39, 0x3a, 0x3b, 0x3c, 0x3d, 0x3e, 0x3f,
    0xa1, 0x41, 0x42, 0x43, 0x44, 0x45, 0x46, 0x47, 0x48, 0x49, 0x4a, 0x4b, 0x4c, 0x4d, 0x4e, 0x4f,
    0x50, 0x51, 0x52, 0x53, 0x54, 0x55, 0x56, 0x57, 0x58, 0x59, 0x5a, 0xc4, 0xd6, 0x147, 0xdc, 0xa7,
    0xbf, 0x61, 0x62, 0x63, 0x64, 0x65, 0x66, 0x67, 0x68, 0x69, 0x6a, 0x6b, 0x6c, 0x6d, 0x6e, 0x6f,
    0x70, 0x71, 0x72, 0x73, 0x74, 0x75, 0x76, 0x77, 0x78, 0x79, 0x7a, 0xe4, 0xf6, 0xf1, 0xfc, 0xe0]

/-- `gsm7bits_extend_to_unicode`. -/
def gsm7bitsExtendToUnicode : List ℕ :=
  [0, 0, 0, 0, 0, 0, 0, 0, 0, 0, 0x0c, 0, 0, 0, 0, 0,
    0, 0, 0, 0, 0x5e, 0, 0, 0, 0, 0, 0, 0, 0, 0, 0, 0,
    0, 0, 0, 0, 0, 0, 0, 0, 0x7b, 0x7d, 0, 0, 0, 0, 0, 0x5c,
    0, 0, 0, 0, 0, 0, 0, 0, 0, 0, 0, 0, 0x5b, 0x7e, 0x5d, 0,
    0x7c, 0, 0, 0, 0, 0, 0, 0, 0, 0, 0, 0, 0, 0, 0, 0,
    0, 0, 0, 0, 0, 0, 0, 0, 0, 0, 0, 0, 0, 0, 0, 0,
    0, 0, 0, 0, 0, 0x20ac, 0, 0, 0, 0, 0, 0, 0, 0, 0, 0,
    0, 0, 0, 0, 0, 0, 0, 0, 0, 0, 0, 0, 0, 0, 0, 0]

/-- The default alphabet of 3GPP TS 23.038: the table of the source but for one character. The
zero stands for the escape. -/
def defaultAlphabet : List ℕ := gsm7bitsToUnicode.set 0x5d 0xd1

def gsm7bitsEscape : ℕ := 0x1b

/-- `unichar_to_gsm7`. -/
def unicharToGsm7 (unicode : ℕ) : Option ℕ := gsm7bitsToUnicode.idxOf? unicode

/-- `unichar_to_gsm7_extend`. -/
def unicharToGsm7Extend (unichar : ℕ) : Option ℕ := gsm7bitsExtendToUnicode.idxOf? unichar

/-- `unichar_to_gsm7_count`. -/
def unicharToGsm7Count (unicode : ℕ) : ℕ :=
  if (unicharToGsm7 unicode).isSome then 1
  else if (unicharToGsm7Extend unicode).isSome then 2
  else 0

/-- The number of septets of a character; one that is not known is replaced by a space. -/
def septetCount (c : ℕ) : ℕ := if unicharToGsm7Count c = 0 then 1 else unicharToGsm7Count c

/-- The septets that `utf8_to_gsm7` writes for a character. -/
def charSeptets (c : ℕ) : List ℕ :=
  match unicharToGsm7 c with
  | some nn => [nn]
  | none =>
    match unicharToGsm7Extend c with
    | some nn => [gsm7bitsEscape, nn]
    | none => [0x20]

/-! ### Reading texts -/

/-- `utf8_check_gsm7`. -/
def utf8CheckGsm7 (p : Bytes) : Bool := (utf8Chars p).all fun c => unicharToGsm7Count c ≠ 0

/-- `utf8_to_gsm7_count`. -/
def utf8ToGsm7Count (p : Bytes) : ℕ := ((utf8Chars p).map septetCount).sum

/-- The loop of `utf8_skip_gsm7`, for at most `n` characters. -/
def utf8SkipGsm7Loop : ℕ → Bytes → ℕ → Bytes
  | 0, p, _ => p
  | n + 1, p, gsm7len =>
    if gsm7len = 0 then p
    else
      match utf8Next p with
      | none => p
      | some (c, q) =>
        if gsm7len < septetCount c then p else utf8SkipGsm7Loop n q (gsm7len - septetCount c)

/-- Each character takes a septet or more. -/
def utf8SkipGsm7 (p : Bytes) (gsm7len : ℕ) : Bytes := utf8SkipGsm7Loop gsm7len p gsm7len

/-- `utf8_skip_ucs2`. -/
def utf8SkipUcs2 : Bytes → ℕ → Bytes
  | p, n + 2 =>
    match utf8Next p with
    | none => p
    | some (_, q) => utf8SkipUcs2 q n
  | p, _ => p

/-- `ucs2_write`. -/
def ucs2Write (v : ℕ) : Bytes := [UInt8.ofNat (v / 256), UInt8.ofNat v]

/-- `utf8_to_ucs2`: what is written. The result is the number of characters. -/
def utf8ToUcs2 (p : Bytes) : Bytes := (utf8Chars p).flatMap ucs2Write

/-- `ucs2_to_utf8`, with a bounds check. -/
def ucs2ToUtf8 (src : Bytes) : ℕ → Checked Bytes
  | 0 => .ok []
  | n + 1 => do
    let hi ← readAt src 0
    let lo ← readAt src 1
    let rest ← ucs2ToUtf8 (src.drop 2) n
    return utf8Write (hi.toNat * 256 + lo.toNat) ++ rest

/-! ### Packing -/

/-- The pointer `dst` is the position in the destination. The `int` of `offset` is a natural number,
as a destination has fewer than `2 ^ 28` bytes. -/
structure BWriter where
  bytes : Bytes
  dst : ℕ
  pad : ℕ
  bits : ℕ
  offset : ℕ

/-- `bwriter_init`. -/
def bwriterInit (bytes : Bytes) (start : ℕ) : Checked BWriter :=
  if start % 8 > 0 then do
    let b ← readAt bytes (start / 8)
    return ⟨bytes, start / 8, b.toNat % 2 ^ (start % 8), start % 8, start⟩
  else .ok ⟨bytes, start / 8, 0, start % 8, start⟩

/-- `bwriter_add7`. -/
def bwriterAdd7 (w : BWriter) (value : ℕ) : Checked BWriter := do
  let pad := w.pad ||| value <<< w.bits
  let bits := w.bits + 7
  if 8 ≤ bits then
    let bytes ← writeAt w.bytes w.dst (UInt8.ofNat pad)
    return ⟨bytes, w.dst + 1, pad >>> 8, bits - 8, w.offset + 7⟩
  else return ⟨w.bytes, w.dst, pad, bits, w.offset + 7⟩

/-- The destination and the bit after the last one written. -/
def bwriterDone (w : BWriter) : Checked (Bytes × ℕ) :=
  if 0 < w.bits then do
    let bytes ← writeAt w.bytes w.dst (UInt8.ofNat w.pad)
    return (bytes, w.offset)
  else .ok (w.bytes, w.offset)

/-- `utf8_to_gsm7` with a destination. -/
def utf8ToGsm7 (p dst : Bytes) (offset : ℕ) : Checked (Bytes × ℕ) := do
  let w ← bwriterInit dst offset
  let w ← ((utf8Chars p).flatMap charSeptets).foldlM bwriterAdd7 w
  bwriterDone w

/-! ### Unpacking -/

def septetAt (src : Bytes) (shift : ℕ) : Checked ℕ := do
  let b ← readAt src 0
  let c := b.toNat >>> shift &&& 0x7f
  if 1 < shift then
    let b' ← readAt src 1
    return (b'.toNat <<< (8 - shift) ||| c) &&& 0x7f
  else return c

/-- The loop of `utf8_from_gsm7`. Nothing in it clears `escaped`. -/
def utf8FromGsm7Loop : ℕ → Bytes → ℕ → Bool → Checked Bytes
  | 0, _, _, _ => .ok []
  | n + 1, src, shift, escaped => do
    let c ← septetAt src shift
    let (src, shift) := if 8 ≤ shift + 7 then (src.drop 1, shift + 7 - 8) else (src, shift + 7)
    if escaped then
      let v ← readAt gsm7bitsExtendToUnicode c
      let rest ← utf8FromGsm7Loop n src shift true
      return utf8Write v ++ rest
    else if c = gsm7bitsEscape then utf8FromGsm7Loop n src shift true
    else
      let v ← readAt gsm7bitsToUnicode c
      let rest ← utf8FromGsm7Loop n src shift false
      return utf8Write v ++ rest

/-- `utf8_from_gsm7`. -/
def utf8FromGsm7 (src : Bytes) (septetOffset septetCount : ℕ) : Checked Bytes :=
  utf8FromGsm7Loop septetCount (src.drop (septetOffset / 8)) (septetOffset % 8) false

/-! ### Texts -/

/-- The bytes do not continue a character. -/
def NoTail (p : Bytes) : Prop := ∀ b ∈ p.head?, b.toNat / 64 ≠ 2

theorem utf8Continue_of_noTail {p : Bytes} (h : NoTail p) (c : ℕ) : utf8Continue c p = (c, p) := by
  cases p with
  | nil => rfl
  | cons b p => exact if_neg (h b rfl)

variable {n c : ℕ}

theorem toNat_ofNat_of_lt (h : n < 256) : (UInt8.ofNat n).toNat = n := by
  exact Nat.mod_eq_of_lt h

theorem utf8Continue_cons (hn : n < 64) (p : Bytes) :
    utf8Continue c (UInt8.ofNat (0x80 + n) :: p) = utf8Continue (c * 64 + n) p := by
  rw [utf8Continue, toNat_ofNat_of_lt (by omega), if_pos (by omega)]
  congr 1
  omega

theorem utf8Next_utf8Write (hc : c < 0x10000) {p : Bytes} (hp : NoTail p) :
    utf8Next (utf8Write c ++ p) = some (c, p) := by
  rw [utf8Write]
  split_ifs with h1 h2
  · rw [singleton_append, utf8Next, toNat_ofNat_of_lt (by omega)]
    exact if_pos h1
  · rw [cons_append, utf8Next, toNat_ofNat_of_lt (by omega)]
    simp only [if_neg (show ¬ 192 + c / 64 < 128 by omega),
      if_pos (show (192 + c / 64) / 32 = 6 by omega), singleton_append]
    rw [utf8Continue_cons (by omega), utf8Continue_of_noTail hp]
    congr 2
    omega
  · rw [cons_append, utf8Next, toNat_ofNat_of_lt (by omega)]
    simp only [if_neg (show ¬ 224 + c / 4096 < 128 by omega),
      if_neg (show ¬ (224 + c / 4096) / 32 = 6 by omega),
      if_pos (show (224 + c / 4096) / 16 = 14 by omega), cons_append, nil_append]
    rw [utf8Continue_cons (by omega), utf8Continue_cons (by omega), utf8Continue_of_noTail hp]
    congr 2
    omega

theorem noTail_utf8Write (hc : c < 0x10000) (p : Bytes) : NoTail (utf8Write c ++ p) := by
  rintro b hb
  rw [utf8Write] at hb
  split_ifs at hb with h1 h2
  · obtain rfl : UInt8.ofNat c = b := by simpa using hb
    rw [toNat_ofNat_of_lt (by omega)]
    omega
  · obtain rfl : UInt8.ofNat (192 + c / 64) = b := by simpa using hb
    rw [toNat_ofNat_of_lt (by omega)]
    omega
  · obtain rfl : UInt8.ofNat (224 + c / 4096) = b := by simpa using hb
    rw [toNat_ofNat_of_lt (by omega)]
    omega

/-- The characters are in the basic multilingual plane. -/
def Basic (cs : List ℕ) : Prop := ∀ c ∈ cs, c < 0x10000

theorem utf8_cons (c : ℕ) (cs : List ℕ) : utf8 (c :: cs) = utf8Write c ++ utf8 cs := rfl

variable {cs ds : List ℕ}

theorem noTail_utf8 (h : Basic cs) : NoTail (utf8 cs) := by
  cases cs with
  | nil => simp [NoTail, utf8]
  | cons c cs => exact noTail_utf8Write (h c mem_cons_self) _

theorem utf8Next_utf8 (h : Basic (c :: cs)) : utf8Next (utf8 (c :: cs)) = some (c, utf8 cs) :=
  utf8Next_utf8Write (h c mem_cons_self)
    (noTail_utf8 fun d hd => h d (mem_cons_of_mem c hd))

theorem length_utf8Write_pos (c : ℕ) : 0 < (utf8Write c).length := by
  rw [utf8Write]
  split_ifs <;> simp

theorem length_le_length_utf8 (cs : List ℕ) : cs.length ≤ (utf8 cs).length := by
  induction cs with
  | nil => simp
  | cons c cs ih =>
    have := length_utf8Write_pos c
    rw [utf8_cons, length_append, length_cons]
    omega

theorem utf8Chars_utf8 (h : Basic cs) : utf8Chars (utf8 cs) = cs := by
  have hchars : ∀ n, cs.length ≤ n → utf8CharsOf n (utf8 cs) = cs := by
    induction cs with
    | nil =>
      intro n _
      cases n <;> rfl
    | cons c cs ih =>
      intro n hn
      obtain ⟨n, rfl⟩ : ∃ m, n = m + 1 := ⟨n - 1, by simp only [length_cons] at hn; omega⟩
      rw [utf8CharsOf, utf8Next_utf8 h]
      exact congrArg (c :: ·) (ih (fun d hd => h d (mem_cons_of_mem c hd)) n (by simpa using hn))
  exact hchars _ (length_le_length_utf8 cs)

theorem utf8_injective (hcs : Basic cs) (hds : Basic ds) (h : utf8 cs = utf8 ds) : cs = ds := by
  rw [← utf8Chars_utf8 hcs, ← utf8Chars_utf8 hds, h]

end AndroidEmu.Telephony
