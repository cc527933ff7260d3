import AndroidEmu.Telephony.Gsm

/-!
# Packing and unpacking septets

`utf8_to_gsm7` writes the septets of a text from any bit of a byte on, and `utf8_from_gsm7` reads
them back: they are the digits of one number to the base 128. The escape before an extension
character applies to all that follows, so the text returns only if nothing follows its first
extension character.
-/

namespace AndroidEmu.Telephony

open CS Checked List Nat

/-! ### Writing -/

/-- After some septets: a writer has the bytes it is done with, and the bits of the next one.
Below the start are the bits that were there. -/
structure BWriter.Packed (w : BWriter) (size start low : ℕ) (values : List ℕ) : Prop where
  length_eq : w.bytes.length = size
  bits_lt : w.bits < 8
  pad_lt : w.pad < 2 ^ w.bits
  position : 8 * w.dst + w.bits = start + 7 * values.length
  offset_eq : w.offset = start + 7 * values.length
  value : leNat (w.bytes.take w.dst) + 256 ^ w.dst * w.pad =
    low + 2 ^ start * Nat.ofDigits 128 values

variable {i start v c nn shift n : ℕ}

theorem leNat_take_set {bytes : Bytes} (hi : i < bytes.length) (b : UInt8) :
    leNat ((bytes.set i b).take (i + 1)) = leNat (bytes.take i) + 256 ^ i * b.toNat := by
  rw [take_add_one, take_set_of_le le_rfl, List.getElem?_set_self hi, leNat_append]
  simp [leNat_cons, length_take, min_eq_left hi.le]

theorem bwriterInit_packed (bytes : Bytes) (hstart : start < 8) (hroom : start ≤ 8 * bytes.length) :
    ∃ w, bwriterInit bytes start = .ok w ∧
      w.Packed bytes.length start (leNat bytes % 2 ^ start) [] := by
  rw [bwriterInit, mod_eq_of_lt hstart, div_eq_of_lt hstart]
  by_cases hzero : start = 0
  · subst hzero
    exact ⟨_, if_neg (lt_irrefl 0), rfl, by norm_num, by norm_num, rfl, rfl, by simp [mod_one]⟩
  obtain ⟨b, bs, rfl⟩ : ∃ b bs, bytes = b :: bs := by
    cases bytes with
    | nil => simp at hroom; omega
    | cons b bs => exact ⟨b, bs, rfl⟩
  rw [if_pos (by omega)]
  refine ⟨_, rfl, rfl, hstart, mod_lt _ (by positivity), by simp, by simp, ?_⟩
  -- the bits below the start are bits of the first byte
  have hdvd : 2 ^ start ∣ 256 := pow_dvd_pow 2 hstart.le
  simp only [take_zero, leNat_nil, pow_zero, one_mul, ofDigits_nil, mul_zero, add_zero,
    zero_add, leNat_cons]
  rw [add_mod, mod_eq_zero_of_dvd (Dvd.dvd.mul_right hdvd _), add_zero, mod_mod]

variable {size start low : ℕ} {values table cs : List ℕ}

theorem BWriter.Packed.add7 {w : BWriter} (h : w.Packed size start low values) (hv : v < 128)
    (hroom : start + 7 * (values.length + 1) ≤ 8 * size) :
    ∃ w', bwriterAdd7 w v = .ok w' ∧ w'.Packed size start low (values ++ [v]) := by
  have hbits := h.bits_lt
  have hposition := h.position
  have hlength := h.length_eq
  have hpad_lt := add_two_pow_mul_lt (w := 7) h.pad_lt hv
  have hvalue : leNat (w.bytes.take w.dst) + 256 ^ w.dst * (w.pad + 2 ^ w.bits * v) =
      low + 2 ^ start * ofDigits 128 (values ++ [v]) := by
    have hpow : 256 ^ w.dst * 2 ^ w.bits = 2 ^ start * 128 ^ values.length := by
      rw [show (256 : ℕ) = 2 ^ 8 by norm_num, show (128 : ℕ) = 2 ^ 7 by norm_num, ← pow_mul,
        ← pow_mul, ← pow_add, ← pow_add, hposition]
    rw [ofDigits_append, ofDigits_singleton, mul_add, mul_add, ← mul_assoc, ← mul_assoc,
      hpow, ← add_assoc, ← add_assoc, h.value]
  rw [bwriterAdd7, or_shiftLeft_of_lt h.pad_lt]
  by_cases hfull : 8 ≤ w.bits + 7
  · have hdst : w.dst < w.bytes.length := by omega
    simp only [if_pos hfull, writeAt, if_pos hdst, ok_bind, pure_eq_ok]
    refine ⟨_, rfl, ?_, ?_, ?_, ?_, ?_, ?_⟩
    · simpa using hlength
    · simp only
      omega
    · simp only
      rw [shiftRight_eq_div_pow, div_lt_iff_lt_mul (by positivity), ← pow_add]
      rwa [show w.bits + 7 - 8 + 8 = w.bits + 7 by omega]
    · simp only [length_append, length_singleton]
      omega
    · simp only [length_append, length_singleton, h.offset_eq]
      omega
    · simp only
      have hbyte := mod_add_div (w.pad + 2 ^ w.bits * v) (2 ^ 8)
      rw [leNat_take_set hdst, UInt8.toNat_ofNat', shiftRight_eq_div_pow, ← hvalue,
        show (256 : ℕ) ^ (w.dst + 1) = 256 ^ w.dst * 2 ^ 8 from pow_succ 256 w.dst, add_assoc,
        mul_assoc, ← mul_add, hbyte]
  · have hzero : w.bits = 0 := by omega
    simp only [if_neg hfull, pure_eq_ok]
    refine ⟨_, rfl, hlength, ?_, hpad_lt, ?_, ?_, hvalue⟩
    · simp only
      omega
    · simp only [length_append, length_singleton]
      omega
    · simp only [length_append, length_singleton, h.offset_eq]
      omega

theorem BWriter.Packed.addAll (more : List ℕ) :
    ∀ {w : BWriter} {values : List ℕ}, w.Packed size start low values → (∀ v ∈ more, v < 128) →
      start + 7 * (values.length + more.length) ≤ 8 * size →
      ∃ w', more.foldlM bwriterAdd7 w = .ok w' ∧ w'.Packed size start low (values ++ more) := by
  induction more with
  | nil => exact fun {w values} h _ _ => ⟨w, rfl, by rwa [append_nil]⟩
  | cons v more ih =>
    intro w values h hmore hroom
    obtain ⟨hv, hmore⟩ := forall_mem_cons.mp hmore
    rw [length_cons] at hroom
    obtain ⟨w', hadd, h'⟩ := h.add7 hv (by omega)
    obtain ⟨w'', hadds, h''⟩ := ih h' hmore (by
      rw [length_append, length_singleton]
      omega)
    refine ⟨w'', ?_, by rwa [append_assoc] at h''⟩
    rw [foldlM_cons, hadd]
    exact hadds

theorem BWriter.Packed.done {w : BWriter}
    (h : w.Packed size start low values) (hroom : start + 7 * values.length ≤ 8 * size) :
    ∃ bytes x, bwriterDone w = .ok (bytes, start + 7 * values.length) ∧ bytes.length = size ∧
      leNat bytes = low + 2 ^ start * (Nat.ofDigits 128 values + 128 ^ values.length * x) := by
  have hbits := h.bits_lt
  have hposition := h.position
  have hlength := h.length_eq
  -- the bytes from the last written one on begin a whole number of bits after the septets
  have hrest : ∀ (bytes : Bytes) (m : ℕ), m ≤ bytes.length → start + 7 * values.length ≤ 8 * m →
      leNat (bytes.take m) = low + 2 ^ start * ofDigits 128 values →
      ∃ x, leNat bytes = low + 2 ^ start * (ofDigits 128 values + 128 ^ values.length * x) := by
    intro bytes m hm hbehind htake
    refine ⟨2 ^ (8 * m - (start + 7 * values.length)) * leNat (bytes.drop m), ?_⟩
    have hpow : 256 ^ m = 2 ^ start * (128 ^ values.length *
        2 ^ (8 * m - (start + 7 * values.length))) := by
      rw [show (256 : ℕ) = 2 ^ 8 by norm_num, show (128 : ℕ) = 2 ^ 7 by norm_num, ← pow_mul,
        ← pow_mul, ← pow_add, ← pow_add]
      congr 1
      omega
    nth_rewrite 1 [← take_append_drop m bytes]
    rw [leNat_append, htake, length_take, min_eq_left hm, hpow]
    ring
  rw [bwriterDone, h.offset_eq]
  by_cases hpending : 0 < w.bits
  · have hdst : w.dst < w.bytes.length := by omega
    simp only [if_pos hpending, writeAt, if_pos hdst, ok_bind, pure_eq_ok]
    have hset : (w.bytes.set w.dst (UInt8.ofNat w.pad)).length = size := by simpa using hlength
    have hbyte : (UInt8.ofNat w.pad).toNat = w.pad :=
      toNat_ofNat_of_lt (h.pad_lt.trans_le (pow_le_pow_right₀ one_le_two hbits.le))
    obtain ⟨x, hx⟩ := hrest (w.bytes.set w.dst (UInt8.ofNat w.pad)) (w.dst + 1) (by omega)
      (by omega) (by rw [leNat_take_set hdst, hbyte, h.value])
    exact ⟨_, x, rfl, hset, hx⟩
  · have hzero : w.bits = 0 := by omega
    have hpad : w.pad = 0 := by
      have := h.pad_lt
      rw [hzero] at this
      omega
    have hvalue := h.value
    rw [hpad, mul_zero] at hvalue
    obtain ⟨x, hx⟩ := hrest w.bytes w.dst (by omega) (by omega) hvalue
    exact ⟨w.bytes, x, if_neg hpending, hlength, hx⟩

def septets (cs : List ℕ) : List ℕ := cs.flatMap charSeptets

theorem unicharToGsm7_eq_some (h : unicharToGsm7 c = some nn) :
    nn < 128 ∧ gsm7bitsToUnicode[nn]? = some c := by
  obtain ⟨hlt, heq, -⟩ := idxOf?_eq_some_iff.mp h
  exact ⟨hlt, by rw [getElem?_eq_getElem hlt, heq]⟩

theorem unicharToGsm7Extend_eq_some (h : unicharToGsm7Extend c = some nn) :
    nn < 128 ∧ gsm7bitsExtendToUnicode[nn]? = some c := by
  obtain ⟨hlt, heq, -⟩ := idxOf?_eq_some_iff.mp h
  exact ⟨hlt, by rw [getElem?_eq_getElem hlt, heq]⟩

inductive Kind (c : ℕ) : Prop
  | basic {nn : ℕ} (h : unicharToGsm7 c = some nn) (hseptets : charSeptets c = [nn])
  | extension {nn : ℕ} (hbasic : unicharToGsm7 c = none) (h : unicharToGsm7Extend c = some nn)
    (hseptets : charSeptets c = [gsm7bitsEscape, nn])
  | unknown (hbasic : unicharToGsm7 c = none) (hext : unicharToGsm7Extend c = none)
    (hseptets : charSeptets c = [0x20])

theorem kind (c : ℕ) : Kind c := by
  cases hbasic : unicharToGsm7 c with
  | some nn => exact .basic hbasic (by rw [charSeptets, hbasic])
  | none =>
    cases hext : unicharToGsm7Extend c with
    | some nn => exact .extension hbasic hext (by rw [charSeptets, hbasic, hext])
    | none => exact .unknown hbasic hext (by rw [charSeptets, hbasic, hext])

theorem charSeptets_spec (c : ℕ) :
    (∀ v ∈ charSeptets c, v < 128) ∧ (charSeptets c).length = septetCount c := by
  rw [septetCount, unicharToGsm7Count]
  cases kind c with
  | basic h hseptets =>
    rw [hseptets]
    exact ⟨by simpa using (unicharToGsm7_eq_some h).1, by simp [h]⟩
  | extension hbasic h hseptets =>
    rw [hseptets]
    exact ⟨by simpa [gsm7bitsEscape] using (unicharToGsm7Extend_eq_some h).1, by simp [hbasic, h]⟩
  | unknown hbasic hext hseptets =>
    rw [hseptets]
    exact ⟨by simp, by simp [hbasic, hext]⟩

variable {cs : List ℕ}

theorem lt_of_mem_septets : ∀ v ∈ septets cs, v < 128 := by
  intro v hv
  obtain ⟨c, -, hv⟩ := mem_flatMap.mp hv
  exact (charSeptets_spec c).1 v hv

theorem length_septets (cs : List ℕ) : (septets cs).length = (cs.map septetCount).sum := by
  rw [septets, length_flatMap]
  simp only [(charSeptets_spec _).2]

/-- A destination with room for the septets holds them as the digits of a number, above the bits
that were there before the start. -/
theorem utf8ToGsm7_spec (hcs : Basic cs) (dst : Bytes)
    (hstart : start < 8) (hroom : start + 7 * (septets cs).length ≤ 8 * dst.length) :
    ∃ bytes x, utf8ToGsm7 (utf8 cs) dst start = .ok (bytes, start + 7 * (septets cs).length) ∧
      bytes.length = dst.length ∧
      leNat bytes = leNat dst % 2 ^ start +
        2 ^ start * (Nat.ofDigits 128 (septets cs) + 128 ^ (septets cs).length * x) := by
  obtain ⟨w, hinit, hpacked⟩ := bwriterInit_packed dst hstart (by omega)
  obtain ⟨w', hadds, hpacked'⟩ :=
    hpacked.addAll (septets cs) lt_of_mem_septets (by simpa using hroom)
  obtain ⟨bytes, x, hdone, hlen, hvalue⟩ := hpacked'.done hroom
  refine ⟨bytes, x, ?_, hlen, hvalue⟩
  rw [utf8ToGsm7, hinit, utf8Chars_utf8 hcs]
  change (septets cs).foldlM bwriterAdd7 w >>= bwriterDone = _
  rw [hadds, ok_bind, hdone]
  rfl

/-! ### Reading -/

theorem septetAt_spec {src : Bytes} (hshift : shift < 8) (hroom : shift + 7 ≤ 8 * src.length) :
    septetAt src shift = .ok (leNat src / 2 ^ shift % 128) := by
  obtain ⟨b, bs, rfl⟩ : ∃ b bs, src = b :: bs := by
    cases src with
    | nil => simp at hroom
    | cons b bs => exact ⟨b, bs, rfl⟩
  have hb := b.toNat_lt
  have hmask : ∀ x, x &&& 0x7f = x % 128 := fun x => and_two_pow_sub_one_eq_mod x 7
  simp only [septetAt, readAt, getElem?_cons_zero, ok_bind, hmask,
    shiftRight_eq_div_pow, leNat_cons]
  by_cases hsplit : 1 < shift
  · obtain ⟨b', bs, rfl⟩ : ∃ b' bs', bs = b' :: bs' := by
      cases bs with
      | nil => simp at hroom; omega
      | cons b' bs' => exact ⟨b', bs', rfl⟩
    rw [if_pos hsplit]
    simp only [getElem?_cons_succ, getElem?_cons_zero, ok_bind,
      pure_eq_ok, leNat_cons, shiftLeft_eq]
    -- the rest of the first byte and the second byte do not overlap
    have hor : b'.toNat * 2 ^ (8 - shift) ||| b.toNat / 2 ^ shift % 128 =
        2 ^ (8 - shift) * b'.toNat + b.toNat / 2 ^ shift % 128 := by
      rw [mul_comm, two_pow_add_eq_or_of_lt]
      interval_cases shift <;> omega
    congr 1
    interval_cases shift <;> omega
  · rw [if_neg hsplit]
    congr 1
    interval_cases shift <;> omega

/-- The characters that `utf8_from_gsm7` makes of septets. -/
def decodeFrom : Bool → List ℕ → List ℕ
  | _, [] => []
  | true, c :: values => gsm7bitsExtendToUnicode.getD c 0 :: decodeFrom true values
  | false, c :: values =>
    if c = gsm7bitsEscape then decodeFrom true values
    else gsm7bitsToUnicode.getD c 0 :: decodeFrom false values

theorem readAt_getD (h : c < table.length) : readAt table c = .ok (table.getD c 0) := by
  rw [readAt, getD_eq_getElem?_getD, getElem?_eq_getElem h, Option.getD_some]

theorem utf8FromGsm7Loop_spec :
    ∀ {src : Bytes} {shift : ℕ} {escaped : Bool}, shift < 8 → shift + 7 * n ≤ 8 * src.length →
      utf8FromGsm7Loop n src shift escaped =
        .ok (utf8 (decodeFrom escaped (groups 7 n (leNat src / 2 ^ shift)))) := by
  induction n with
  | zero => exact fun {src shift escaped} _ _ => by cases escaped <;> rfl
  | succ n ih =>
    intro src shift escaped hshift hroom
    have hlt : leNat src / 2 ^ shift % 128 < 128 := mod_lt _ (by norm_num)
    -- the next septet starts seven bits further on
    have hnext : ∀ escaped,
        utf8FromGsm7Loop n
          (if 8 ≤ shift + 7 then (src.drop 1, shift + 7 - 8) else (src, shift + 7)).1
          (if 8 ≤ shift + 7 then (src.drop 1, shift + 7 - 8) else (src, shift + 7)).2 escaped =
        .ok (utf8 (decodeFrom escaped (groups 7 n (leNat src / 2 ^ shift / 2 ^ 7)))) := by
      intro escaped
      rw [Nat.div_div_eq_div_mul, ← pow_add]
      by_cases hfull : 8 ≤ shift + 7
      · obtain ⟨b, bs, rfl⟩ : ∃ b bs, src = b :: bs := by
          cases src with
          | nil => simp at hroom
          | cons b bs => exact ⟨b, bs, rfl⟩
        simp only [if_pos hfull, drop_succ_cons, drop_zero]
        rw [length_cons] at hroom
        rw [ih (by omega) (by omega)]
        have hdiv : leNat (b :: bs) / 2 ^ (shift + 7) = leNat bs / 2 ^ (shift + 7 - 8) := by
          have hb := b.toNat_lt
          have hpow : 2 ^ (shift + 7) = 256 * 2 ^ (shift + 7 - 8) := by
            rw [show (256 : ℕ) = 2 ^ 8 by norm_num, ← pow_add]
            congr 1
            omega
          rw [hpow, ← Nat.div_div_eq_div_mul, leNat_cons]
          congr 1
          omega
        rw [hdiv]
      · simp only [if_neg hfull]
        rw [ih (by omega) (by omega)]
    rw [utf8FromGsm7Loop, septetAt_spec hshift (by omega), ok_bind, groups]
    cases escaped with
    | true =>
      simp only [if_pos, hnext, readAt_getD (show _ < gsm7bitsExtendToUnicode.length from hlt),
        ok_bind, pure_eq_ok]
      rfl
    | false =>
      simp only [Bool.false_eq_true, if_false, hnext,
        readAt_getD (show _ < gsm7bitsToUnicode.length from hlt), ok_bind, pure_eq_ok]
      change _ = Except.ok (utf8 (if leNat src / 2 ^ shift % 128 = gsm7bitsEscape then _ else _))
      split_ifs with hescape
      · rfl
      · rfl

theorem utf8FromGsm7_spec {src : Bytes} (hstart : start < 8)
    (hroom : start + 7 * n ≤ 8 * src.length) :
    utf8FromGsm7 src start n =
      .ok (utf8 (decodeFrom false (groups 7 n (leNat src / 2 ^ start)))) := by
  rw [utf8FromGsm7, mod_eq_of_lt hstart, div_eq_of_lt hstart]
  exact utf8FromGsm7Loop_spec hstart hroom

/-! ### Round trips -/

/-- A character of the default alphabet or of its extension. -/
def Representable (c : ℕ) : Prop :=
  c ≠ 0 ∧ (c ∈ defaultAlphabet ∨ c ∈ gsm7bitsExtendToUnicode)

instance : DecidablePred Representable := fun _ => inferInstanceAs (Decidable (_ ∧ _))

/-- A character that is written with an escape. -/
def IsExtension (c : ℕ) : Prop := unicharToGsm7 c = none ∧ (unicharToGsm7Extend c).isSome

instance : DecidablePred IsExtension := fun _ => inferInstanceAs (Decidable (_ ∧ _))

/-- What there is to know of the tables. -/
theorem tables_spec : (∀ c ∈ defaultAlphabet, c < 0x10000 ∧ (unicharToGsm7 c = none → c = 0xd1)) ∧
      (∀ c ∈ gsm7bitsExtendToUnicode, c < 0x10000 ∧ (unicharToGsm7Extend c).isSome) ∧
      (∀ c ∈ gsm7bitsToUnicode, c < 0x10000) ∧
      (∀ nn < 128, gsm7bitsToUnicode.getD nn 0 = gsm7bitsExtendToUnicode.getD nn 0 →
        gsm7bitsToUnicode.getD nn 0 = 0) ∧
      unicharToGsm7 0x20 = some 0x20 ∧ unicharToGsm7 0xd1 = none ∧
      unicharToGsm7Extend 0xd1 = none := by
  decide +kernel

theorem Representable.spec (h : Representable c) :
    c < 0x10000 ∧ (unicharToGsm7 c = none → unicharToGsm7Extend c = none → c = 0xd1) := by
  obtain ⟨hdefault, hextend, -⟩ := tables_spec
  rcases h.2 with hc | hc
  · exact ⟨(hdefault c hc).1, fun hbasic _ => (hdefault c hc).2 hbasic⟩
  · exact ⟨(hextend c hc).1, fun _ hnone => by simpa [hnone] using (hextend c hc).2⟩

theorem extend_ne_basic (hc : c ≠ 0) (h : unicharToGsm7 c = some nn) :
    gsm7bitsExtendToUnicode.getD nn 0 ≠ c := by
  obtain ⟨-, -, -, hne, -⟩ := tables_spec
  obtain ⟨hlt, hget⟩ := unicharToGsm7_eq_some h
  have hcode : gsm7bitsToUnicode.getD nn 0 = c := by
    rw [getD_eq_getElem?_getD, hget, Option.getD_some]
  intro heq
  exact hc (hcode ▸ hne nn hlt (hcode.trans heq.symm))

/-- A decoder that reads a text up to its first extension character, and then not the next one. -/
structure Decodes (decode : Bool → List ℕ → List ℕ) : Prop where
  nil : ∀ escaped, decode escaped [] = []
  basic : ∀ {c nn : ℕ}, c ≠ 0 → unicharToGsm7 c = some nn → ∀ values,
    decode false (nn :: values) = c :: decode false values
  extension : ∀ {c nn : ℕ}, c ≠ 0 → unicharToGsm7Extend c = some nn → ∀ values,
    decode false (gsm7bitsEscape :: nn :: values) = c :: decode true values
  escaped_ne : ∀ {c : ℕ}, c ≠ 0 → ∀ cs, decode true (septets (c :: cs)) ≠ c :: cs

theorem ne_escape (hc : c ≠ 0) (h : unicharToGsm7 c = some nn) : nn ≠ gsm7bitsEscape := by
  rintro rfl
  exact hc (Option.some.inj (unicharToGsm7_eq_some h).2).symm

theorem decodes_decodeFrom : Decodes decodeFrom where
  nil escaped := by cases escaped <;> rfl
  basic hc h values := by
    rw [decodeFrom, if_neg (ne_escape hc h), getD_eq_getElem?_getD, (unicharToGsm7_eq_some h).2,
      Option.getD_some]
  extension {c nn} _ h values := by
    change gsm7bitsExtendToUnicode.getD nn 0 :: _ = _
    rw [getD_eq_getElem?_getD, (unicharToGsm7Extend_eq_some h).2, Option.getD_some]
  escaped_ne {c} hc cs heq := by
    rw [septets, flatMap_cons] at heq
    cases kind c with
    | basic h hseptets =>
      rw [hseptets] at heq
      exact extend_ne_basic hc h (cons.inj heq).1
    | extension _ _ hseptets =>
      rw [hseptets] at heq
      exact hc (cons.inj heq).1.symm
    | unknown _ _ hseptets =>
      rw [hseptets] at heq
      exact hc (cons.inj heq).1.symm

/-- Nothing follows an extension character, and the character that the source lacks is not
there. -/
def Returns (cs : List ℕ) : Prop := (∀ c ∈ cs, c ≠ 0xd1) ∧ ∀ c ∈ cs.dropLast, ¬ IsExtension c

instance : DecidablePred Returns := fun _ => inferInstanceAs (Decidable (_ ∧ _))

theorem returns_cons : Returns (c :: cs) ↔ c ≠ 0xd1 ∧ (cs ≠ [] → ¬ IsExtension c) ∧ Returns cs := by
  cases cs with
  | nil => simp [Returns]
  | cons d cs =>
    simp only [Returns, forall_mem_cons, dropLast_cons_cons, ne_eq, reduceCtorEq,
      not_false_eq_true, forall_const]
    tauto

theorem Decodes.septets_iff {decode : Bool → List ℕ → List ℕ} (hdecode : Decodes decode)
    (hcs : ∀ c ∈ cs, Representable c) : decode false (septets cs) = cs ↔ Returns cs := by
  induction cs with
  | nil => exact ⟨fun _ => ⟨by simp, by simp⟩, fun _ => hdecode.nil false⟩
  | cons c cs ih =>
    obtain ⟨hc, hcs⟩ := forall_mem_cons.mp hcs
    have hsplit : septets (c :: cs) = charSeptets c ++ septets cs := flatMap_cons
    obtain ⟨-, -, -, -, hspace, hmissing, hmissing'⟩ := tables_spec
    rw [returns_cons]
    cases kind c with
    | basic h hseptets =>
      have hd1 : c ≠ 0xd1 := by
        rintro rfl
        simp [hmissing] at h
      have hext : ¬ IsExtension c := fun hext => by simp [IsExtension, h] at hext
      rw [hsplit, hseptets, singleton_append, hdecode.basic hc.1 h, cons.injEq, ih hcs]
      simp [hd1, hext]
    | @extension nn hbasic h hseptets =>
      have hd1 : c ≠ 0xd1 := by
        rintro rfl
        simp [hmissing'] at h
      have hext : IsExtension c := ⟨hbasic, by rw [h]; rfl⟩
      have hread : decode false (septets (c :: cs)) = c :: decode true (septets cs) := by
        rw [hsplit, hseptets]
        exact hdecode.extension hc.1 h _
      rw [hread]
      cases cs with
      | nil => simp [Returns, hd1, hdecode.nil, septets]
      | cons d cs =>
        have hne := hdecode.escaped_ne (forall_mem_cons.mp hcs).1.1 cs
        simp [hne, hext]
    | unknown hbasic hextend hseptets =>
      obtain rfl := hc.spec.2 hbasic hextend
      rw [hsplit, hseptets, singleton_append, hdecode.basic (by norm_num) hspace]
      simp

theorem getD_tables_lt (i : ℕ) :
    gsm7bitsToUnicode.getD i 0 < 0x10000 ∧ gsm7bitsExtendToUnicode.getD i 0 < 0x10000 := by
  have hgetD : ∀ (table : List ℕ), (∀ c ∈ table, c < 0x10000) → table.getD i 0 < 0x10000 := by
    intro table htable
    rw [getD_eq_getElem?_getD]
    cases hget : table[i]? with
    | none => norm_num
    | some c => exact htable c (mem_of_getElem? hget)
  obtain ⟨-, hextend, hbasic, -⟩ := tables_spec
  exact ⟨hgetD _ hbasic, hgetD _ fun c hc => (hextend c hc).1⟩

theorem basic_cons (hc : c < 0x10000) (hcs : Basic cs) : Basic (c :: cs) :=
  forall_mem_cons.mpr ⟨hc, hcs⟩

theorem basic_decodeFrom (escaped : Bool) (values : List ℕ) :
    Basic (decodeFrom escaped values) := by
  induction values generalizing escaped with
  | nil => cases escaped <;> simp [decodeFrom, Basic]
  | cons c values ih =>
    cases escaped with
    | true => exact basic_cons (getD_tables_lt c).2 (ih true)
    | false =>
      rw [decodeFrom]
      split_ifs
      · exact ih true
      · exact basic_cons (getD_tables_lt c).1 (ih false)

/-- A text of the GSM alphabet is packed into a destination with room for it, from any bit of
the first byte on, without changing the bits before. Unpacking it returns the text if and only
if nothing follows an extension character and the character the source lacks is not there. -/
theorem gsm7_round_trip_iff (cs : List ℕ) (hcs : ∀ c ∈ cs, Representable c) (dst : Bytes)
    (start : ℕ) (hstart : start < 8)
    (hroom : start + 7 * utf8ToGsm7Count (utf8 cs) ≤ 8 * dst.length) :
    ∃ bytes pos, utf8ToGsm7 (utf8 cs) dst start = .ok (bytes, pos) ∧ bytes.length = dst.length ∧
      (∀ b ∈ dst.head?, ∃ b' ∈ bytes.head?, b'.toNat % 2 ^ start = b.toNat % 2 ^ start) ∧
      (utf8FromGsm7 bytes start (utf8ToGsm7Count (utf8 cs)) = .ok (utf8 cs) ↔ Returns cs) := by
  have hbasic : Basic cs := fun c hc => (hcs c hc).spec.1
  have hcount : utf8ToGsm7Count (utf8 cs) = (septets cs).length := by
    rw [utf8ToGsm7Count, utf8Chars_utf8 hbasic, length_septets]
  rw [hcount] at hroom ⊢
  obtain ⟨bytes, x, hpack, hlen, hvalue⟩ := utf8ToGsm7_spec hbasic dst hstart hroom
  refine ⟨bytes, _, hpack, hlen, fun b hb => ?_, ?_⟩
  · cases dst with
    | nil => simp at hb
    | cons d dst =>
      obtain rfl : d = b := by simpa using hb
      cases bytes with
      | nil => simp at hlen
      | cons b' bytes =>
        have hdvd : 2 ^ start ∣ 256 := pow_dvd_pow 2 hstart.le
        have hlow : leNat (b' :: bytes) % 2 ^ start = leNat (d :: dst) % 2 ^ start := by
          rw [hvalue, add_mul_mod_self_left, mod_mod]
        rw [leNat_cons, leNat_cons, add_mod, add_mod d.toNat,
          mod_eq_zero_of_dvd (Dvd.dvd.mul_right hdvd _),
          mod_eq_zero_of_dvd (Dvd.dvd.mul_right hdvd _), add_zero, mod_mod, add_zero,
          mod_mod] at hlow
        exact ⟨b', rfl, hlow⟩
  · have hlow : leNat bytes / 2 ^ start =
        ofDigits (2 ^ 7) (septets cs) + (2 ^ 7) ^ (septets cs).length * x := by
      rw [hvalue, add_mul_div_left _ _ (by positivity),
        div_eq_of_lt (mod_lt _ (by positivity)), zero_add]
      rfl
    rw [utf8FromGsm7_spec hstart (by omega), hlow, groups_ofDigits lt_of_mem_septets,
      ← decodes_decodeFrom.septets_iff hcs]
    constructor
    · intro heq
      exact utf8_injective (basic_decodeFrom _ _) hbasic (Except.ok.inj heq)
    · intro heq
      rw [heq]

/-- A text that ends in a euro sign, from the fourth bit on. -/
theorem gsm7_round_trip_iff_euro :
    ∃ bytes pos, utf8ToGsm7 (utf8 [0x35, 0x20, 0x20ac]) [0xff, 0xff, 0xff, 0xff] 3 =
        .ok (bytes, pos) ∧ bytes.length = 4 ∧
      (∀ b ∈ [(0xff : UInt8), 0xff, 0xff, 0xff].head?, ∃ b' ∈ bytes.head?,
        b'.toNat % 2 ^ 3 = b.toNat % 2 ^ 3) ∧
      (utf8FromGsm7 bytes 3 4 = .ok (utf8 [0x35, 0x20, 0x20ac]) ↔ Returns [0x35, 0x20, 0x20ac]) :=
  gsm7_round_trip_iff [0x35, 0x20, 0x20ac] (by decide +kernel) [0xff, 0xff, 0xff, 0xff] 3
    (by norm_num) (by decide +kernel)

/-- The digit after the euro sign is lost, and the letter that the table lacks is a space. -/
theorem gsm7_text_lost : (∀ c ∈ [0x20ac, 0x35, 0xd1], Representable c) ∧
      (utf8ToGsm7 (utf8 [0x20ac, 0x35]) [0, 0, 0] 0 >>= fun r => utf8FromGsm7 r.1 0 3) =
        .ok (utf8 [0x20ac, 0]) ∧
      (utf8ToGsm7 (utf8 [0xd1]) [0] 0 >>= fun r => utf8FromGsm7 r.1 0 1) = .ok (utf8 [0x20]) ∧
      utf8 [0x20ac, 0] ≠ utf8 [0x20ac, 0x35] ∧ utf8 [0x20] ≠ utf8 [0xd1] := by
  decide +kernel

end AndroidEmu.Telephony
