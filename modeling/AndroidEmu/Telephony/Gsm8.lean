import AndroidEmu.Telephony.Gsm7
import Mathlib.Data.List.TakeWhile

/-!
# Bytes of the GSM alphabet, and sizes

`utf8_to_gsm8` writes each septet as a byte of its own. As with septets, the escape before an
extension character applies to what follows. Without a destination `utf8_to_gsm7` returns the number
of septets, with one the bit behind the last.
-/

namespace AndroidEmu.Telephony

open CS List

/-! ### Bytes -/

/-- The characters that `utf8_from_gsm8` reads. Nothing clears `escaped` behind a character of the
extension table. -/
def gsm8Chars : Bool → Bytes → List ℕ
  | _, [] => []
  | escaped, b :: src =>
    let c := b.toNat
    if c = 0xff then []
    else if c = gsm7bitsEscape then
      -- two escapes are a space
      if escaped then 0x20 :: gsm8Chars false src else gsm8Chars true src
    else if 0x80 ≤ c then 0x20 :: gsm8Chars false src
    else if escaped then gsm7bitsExtendToUnicode.getD c 0 :: gsm8Chars true src
    else gsm7bitsToUnicode.getD c 0 :: gsm8Chars false src

/-- `utf8_from_gsm8`. -/
def utf8FromGsm8 (src : Bytes) : Bytes := utf8 (gsm8Chars false src)

/-- The bytes that are written. -/
def utf8ToGsm8 (p : Bytes) : Bytes := (septets (utf8Chars p)).map UInt8.ofNat

theorem gsm8Chars_cons {nn : ℕ} (hlt : nn < 128) (hescape : nn ≠ gsm7bitsEscape) (escaped : Bool)
    (src : Bytes) : gsm8Chars escaped (UInt8.ofNat nn :: src) =
      (if escaped then gsm7bitsExtendToUnicode else gsm7bitsToUnicode).getD nn 0 ::
        gsm8Chars escaped src := by
  rw [gsm8Chars]
  simp only [toNat_ofNat_of_lt (show nn < 256 by omega), if_neg (show nn ≠ 0xff by omega),
    if_neg hescape, if_neg (show ¬ 0x80 ≤ nn by omega)]
  cases escaped <;> rfl

theorem decodes_gsm8Chars :
    Decodes fun escaped values => gsm8Chars escaped (values.map UInt8.ofNat) where
  nil escaped := by cases escaped <;> rfl
  basic hc h values := by
    obtain ⟨hlt, hget⟩ := unicharToGsm7_eq_some h
    rw [map_cons, gsm8Chars_cons hlt (ne_escape hc h)]
    simp [getD_eq_getElem?_getD, hget]
  extension {c nn} hc h values := by
    obtain ⟨hlt, hget⟩ := unicharToGsm7Extend_eq_some h
    have hescape : nn ≠ gsm7bitsEscape := by
      rintro rfl
      exact hc (Option.some.inj hget).symm
    change gsm8Chars true (UInt8.ofNat nn :: values.map UInt8.ofNat) = _
    rw [gsm8Chars_cons hlt hescape]
    simp [getD_eq_getElem?_getD, hget]
  escaped_ne {c} hc cs heq := by
    rw [septets, flatMap_cons] at heq
    cases kind c with
    | basic h hseptets =>
      rw [hseptets, singleton_append, map_cons,
        gsm8Chars_cons (unicharToGsm7_eq_some h).1 (ne_escape hc h)] at heq
      exact extend_ne_basic hc h (cons.inj heq).1
    | extension hbasic _ hseptets =>
      rw [hseptets] at heq
      obtain rfl : 0x20 = c := (cons.inj heq).1
      obtain ⟨-, -, -, -, hspace, -⟩ := tables_spec
      cases hspace.symm.trans hbasic
    | unknown _ _ hseptets =>
      rw [hseptets] at heq
      exact hc (cons.inj heq).1.symm

theorem basic_gsm8Chars (escaped : Bool) (src : Bytes) : Basic (gsm8Chars escaped src) := by
  induction src generalizing escaped with
  | nil => cases escaped <;> simp [gsm8Chars, Basic]
  | cons b src ih =>
    rw [gsm8Chars]
    split_ifs
    · simp [Basic]
    · exact basic_cons (by norm_num) (ih false)
    · exact ih true
    · exact basic_cons (by norm_num) (ih false)
    · exact basic_cons (getD_tables_lt _).2 (ih true)
    · exact basic_cons (getD_tables_lt _).1 (ih false)

/-- A text of the GSM alphabet returns from its bytes if and only if nothing follows an extension
character and the character the source lacks is not there. -/
theorem gsm8_round_trip_iff (cs : List ℕ) (hcs : ∀ c ∈ cs, Representable c) :
    utf8FromGsm8 (utf8ToGsm8 (utf8 cs)) = utf8 cs ↔ Returns cs := by
  have hbasic : Basic cs := fun c hc => (hcs c hc).spec.1
  rw [utf8FromGsm8, utf8ToGsm8, utf8Chars_utf8 hbasic, ← decodes_gsm8Chars.septets_iff hcs]
  exact ⟨fun heq => utf8_injective (basic_gsm8Chars _ _) hbasic heq, fun heq => by rw [heq]⟩

/-- A text that ends in a euro sign. -/
theorem gsm8_round_trip_iff_euro :
    utf8FromGsm8 (utf8ToGsm8 (utf8 [0x35, 0x20ac])) = utf8 [0x35, 0x20ac] ↔
      Returns [0x35, 0x20ac] :=
  gsm8_round_trip_iff [0x35, 0x20ac] (by decide +kernel)

/-- The digit after the euro sign is lost. -/
theorem gsm8_text_lost : (∀ c ∈ [0x20ac, 0x35], Representable c) ∧
      utf8FromGsm8 (utf8ToGsm8 (utf8 [0x20ac, 0x35])) = utf8 [0x20ac, 0] ∧
      utf8 [0x20ac, 0] ≠ utf8 [0x20ac, 0x35] := by
  decide +kernel

/-! ### Sizes -/

/-- The characters of any bytes, as an `int` keeps them, up to the first negative one. -/
def utf8Ints (p : Bytes) : List ℕ := ((utf8Chars p).map (wrapNat 32)).takeWhile (· < 2 ^ 31)

/-- `utf8_to_gsm7`: without a destination it counts septets. -/
def utf8ToGsm7Any (p : Bytes) (dst : Option Bytes) (offset : ℕ) : Checked (Option Bytes × ℕ) :=
  match dst with
  | none => .ok (none, ((utf8Ints p).map septetCount).sum)
  | some dst => do
    let w ← bwriterInit dst offset
    let w ← (septets (utf8Ints p)).foldlM bwriterAdd7 w
    let (bytes, result) ← bwriterDone w
    return (some bytes, result)

/-- On text of the basic plane this is what the other readers and writers call. -/
theorem utf8ToGsm7Any_utf8 {cs : List ℕ} (hcs : Basic cs) (dst : Bytes) (offset : ℕ) :
    utf8ToGsm7Any (utf8 cs) (some dst) offset =
      (utf8ToGsm7 (utf8 cs) dst offset).map fun r => (some r.1, r.2) := by
  have hints : utf8Ints (utf8 cs) = cs := by
    have hmap : cs.map (wrapNat 32) = cs := by
      rw [map_congr_left fun c hc => wrapNat_of_lt ((hcs c hc).trans (by decide)), map_id']
    rw [utf8Ints, utf8Chars_utf8 hcs, hmap, takeWhile_eq_self_iff]
    exact fun c hc => decide_eq_true ((hcs c hc).trans (by decide))
  rw [utf8ToGsm7Any, utf8ToGsm7, hints, utf8Chars_utf8 hcs]
  cases bwriterInit dst offset with
  | error f => rfl
  | ok w =>
    change ((septets cs).foldlM bwriterAdd7 w >>= _) =
      Except.map _ ((septets cs).foldlM bwriterAdd7 w >>= _)
    cases (septets cs).foldlM bwriterAdd7 w with
    | error f => rfl
    | ok w => cases bwriterDone w <;> rfl

theorem exists_packed (bytes : Bytes) {start : ℕ} (hroom : start ≤ 8 * bytes.length) :
    ∃ w low, bwriterInit bytes start = .ok w ∧ w.Packed bytes.length start low [] := by
  have hlt : start % 8 < 8 := Nat.mod_lt _ (by norm_num)
  rw [bwriterInit]
  split_ifs with hbits
  · rw [readAt_of_getElem? (getElem?_eq_getElem (show start / 8 < bytes.length by omega))]
    exact ⟨_, _, rfl, rfl, hlt, Nat.mod_lt _ (by positivity), Nat.div_add_mod start 8, rfl, rfl⟩
  · exact ⟨_, _, rfl, rfl, hlt, by positivity, Nat.div_add_mod start 8, rfl, rfl⟩

theorem length_charSeptets_pos (c : ℕ) : 0 < (charSeptets c).length := by
  cases kind c with
  | basic _ hseptets => simp [hseptets]
  | extension _ _ hseptets => simp [hseptets]
  | unknown _ _ hseptets => simp [hseptets]

/-- With and without a destination the number of septets written is returned if and only if there
are none and the offset is zero: with one, the result is the bit behind the last septet. -/
theorem gsm7_size_iff (p dst : Bytes) (offset : ℕ)
    (hroom : offset + 7 * (septets (utf8Ints p)).length ≤ 8 * dst.length) :
    (∃ bytes, utf8ToGsm7Any p none offset = .ok (none, (septets (utf8Ints p)).length) ∧
      utf8ToGsm7Any p (some dst) offset = .ok (some bytes, (septets (utf8Ints p)).length)) ↔
      utf8Ints p = [] ∧ offset = 0 := by
  obtain ⟨w, low, hinit, hpacked⟩ := exists_packed dst (show offset ≤ 8 * dst.length by omega)
  obtain ⟨w', hadds, hpacked'⟩ := hpacked.addAll (septets (utf8Ints p)) lt_of_mem_septets
    (by simpa using hroom)
  obtain ⟨bytes, -, hdone, -⟩ := hpacked'.done hroom
  rw [nil_append] at hdone
  have hpos : (septets (utf8Ints p)).length = 0 ↔ utf8Ints p = [] := by
    cases utf8Ints p with
    | nil => simp [septets]
    | cons c cs =>
      have := length_charSeptets_pos c
      rw [septets, flatMap_cons, length_append]
      exact iff_of_false (by omega) (cons_ne_nil c cs)
  simp only [utf8ToGsm7Any, ← length_septets, hinit, hadds, hdone, Checked.ok_bind,
    Checked.pure_eq_ok, Except.ok.injEq, Prod.mk.injEq, Option.some.injEq, true_and,
    exists_eq_left']
  rw [← hpos]
  omega

/-- A letter and the euro sign, from the fourth bit on. -/
theorem gsm7_size_iff_euro : let p : Bytes := [0x41, 0xe2, 0x82, 0xac]
    (∃ bytes, utf8ToGsm7Any p none 3 = .ok (none, (septets (utf8Ints p)).length) ∧
      utf8ToGsm7Any p (some [0, 0, 0]) 3 = .ok (some bytes, (septets (utf8Ints p)).length)) ↔
      utf8Ints p = [] ∧ 3 = 0 :=
  gsm7_size_iff [0x41, 0xe2, 0x82, 0xac] [0, 0, 0] 3 (by decide +kernel)

/-- One septet is counted, and seven are returned. -/
theorem gsm7_size_differs : utf8ToGsm7Any [0x41] none 0 = .ok (none, 1) ∧
      utf8ToGsm7Any [0x41] (some [0]) 0 = .ok (some [0x41], 7) := by
  decide +kernel

end AndroidEmu.Telephony
