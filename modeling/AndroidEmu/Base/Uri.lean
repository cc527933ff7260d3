import AndroidEmu.CS.Numeral

/-!
# Percent encoding

`base/Uri.cpp`. `Decode` hands the two characters behind a `%` to `strtoul`, which takes a blank or
a sign for the first and stops at the second if that is no digit.
-/

namespace AndroidEmu.Base.Uri

open CS List

/-- What `appendEncodedChar` escapes. -/
def reserved : Bytes := [0x21, 0x23, 0x24, 0x26, 0x27, 0x28, 0x29, 0x2a, 0x2b, 0x2c, 0x2f, 0x3a,
  0x3b, 0x3d, 0x3f, 0x40, 0x5b, 0x5d, 0x20, 0x25]

/-- A digit of `%02X`. -/
def hexDigit (n : ℕ) : UInt8 := UInt8.ofNat (if n < 10 then 0x30 + n else 0x37 + n)

def appendEncodedChar (c : UInt8) : Bytes :=
  if c ∈ reserved then [0x25, hexDigit (c.toNat / 16), hexDigit (c.toNat % 16)] else [c]

/-- `Uri::Encode`. -/
def encode (uri : Bytes) : Bytes := uri.flatMap appendEncodedChar

/-- The loop of `Decode`, with what is read of an escape. `none` is the empty string of an error. -/
def scan (read : UInt8 → UInt8 → Option UInt8) : Bytes → Option Bytes
  | 0x25 :: a :: b :: s => (read a b).bind fun ch => (scan read s).map (ch :: ·)
  | 0x25 :: _ => none
  | c :: s => (scan read s).map (c :: ·)
  | [] => some []

/-- The `char` of what `strtoul` reads, unless that is zero. A `0x` would need a third character. -/
def decodedChar (a b : UInt8) : Option UInt8 :=
  let ch := UInt8.ofNat ((strto 16 [a, b]).1 % 256).toNat
  if ch = 0 then none else some ch

/-- `Uri::Decode`. -/
def decode (uri : Bytes) : Bytes := (scan decodedChar uri).getD []

/-- Every `%` is followed by two characters with `p`. -/
def Escapes (p : UInt8 → UInt8 → Bool) (uri : Bytes) : Bool :=
  uri.tails.all fun
    | 0x25 :: a :: b :: _ => p a b
    | 0x25 :: _ => false
    | _ => true

def hexPair (a b : UInt8) : Bool := digitValue a < 16 && digitValue b < 16

/-- A character other than `%`, or an escape. -/
inductive Piece
  | plain (c : UInt8) (h : c ≠ 0x25)
  | escape (a b : UInt8)

def Piece.text : Piece → Bytes
  | .plain c _ => [c]
  | .escape a b => [0x25, a, b]

/-- What a piece stands for. -/
def Piece.byte : Piece → UInt8
  | .plain c _ => c
  | .escape a b => UInt8.ofNat (16 * digitValue a + digitValue b)

/-- The second string is the first with each escape of two hexadecimal digits replaced by its byte. -/
def Unescaped (uri text : Bytes) : Prop :=
  ∃ pieces : List Piece, uri = pieces.flatMap Piece.text ∧ text = pieces.map Piece.byte ∧
    ∀ a b, .escape a b ∈ pieces → hexPair a b = true

/-- A hexadecimal digit other than zero, after what `strtoul` skips. -/
def nonZero (a b : UInt8) : Bool :=
  let digit (c : UInt8) : Bool := 0 < digitValue c && digitValue c < 16
  digit a || ((a == 0x30 || isBlank a || isSign a) && digit b)

/-- Behind some pieces there is an escape which the end cuts off or which reads as zero. -/
def Stops (uri : Bytes) : Prop :=
  ∃ (pieces : List Piece) (rest : Bytes), uri = pieces.flatMap Piece.text ++ 0x25 :: rest ∧
    (rest.length < 2 ∨ ∃ a b s, rest = a :: b :: s ∧ nonZero a b = false)

variable {read : UInt8 → UInt8 → Option UInt8} {a b c : UInt8} {s : Bytes}

theorem eq_nil_of_scan (h : scan read s = some []) : s = [] := by
  fun_cases scan read s <;> simp_all [scan, Option.bind_eq_some_iff]

theorem strto_pair (a b : UInt8) : (strto 16 [a, b]).1 =
    if digitValue a < 16 then
      if digitValue b < 16 then (16 * digitValue a + digitValue b : ℤ) else digitValue a
    else if (isBlank a ∨ isSign a) ∧ digitValue b < 16 then
      if a = 0x2d then -(digitValue b : ℤ) else digitValue b
    else 0 := by
  have hblank : isBlank a → a ≠ 0x2d := by
    rintro h rfl
    cases h
  by_cases ha : digitValue a < 16
  · obtain ⟨ha1, ha2, ha3⟩ := (digitValue_spec a).2 (by omega)
    by_cases hb : digitValue b < 16 <;> simp [strto, readDigits, ha1, ha2, ha3, ha, hb]
  by_cases ha1 : isBlank a
  · by_cases hb : digitValue b < 16
    · obtain ⟨hb1, hb2, hb3⟩ := (digitValue_spec b).2 (by omega)
      simp [strto, readDigits, ha1, hblank ha1, ha, hb, hb1, hb2, hb3]
    by_cases hb1 : isBlank b <;> by_cases hb2 : isSign b <;>
      simp [strto, readDigits, ha1, ha, hb, hb1, hb2]
  by_cases ha2 : isSign a <;> by_cases hb : digitValue b < 16 <;>
    simp [strto, readDigits, ha1, ha2, ha, hb]

theorem decodedChar_eq_none_iff (a b : UInt8) : decodedChar a b = none ↔ nonZero a b = false := by
  have hchar : decodedChar a b = none ↔ (strto 16 [a, b]).1 % 256 = 0 := by
    have : (0 : UInt8).toNat = 0 := rfl
    simp only [decodedChar, ite_eq_left_iff, reduceCtorEq, imp_false, not_not]
    rw [← UInt8.toNat_inj, UInt8.toNat_ofNat']
    omega
  have := digitValue_spec a
  rw [hchar, strto_pair]
  simp only [nonZero]
  grind

theorem decodedChar_of_hexPair (h : hexPair a b = true) (hne : a ≠ 0x30 ∨ b ≠ 0x30) :
    decodedChar a b = some (UInt8.ofNat (16 * digitValue a + digitValue b)) := by
  rw [hexPair, Bool.and_eq_true, decide_eq_true_eq, decide_eq_true_eq] at h
  rw [← not_and_or, ← (digitValue_spec a).1, ← (digitValue_spec b).1] at hne
  have hvalue : ((strto 16 [a, b]).1 % 256).toNat = 16 * digitValue a + digitValue b := by
    rw [strto_pair, if_pos h.1, if_pos h.2]
    omega
  rw [decodedChar, hvalue, if_neg]
  rw [← UInt8.toNat_inj, UInt8.toNat_ofNat']
  have : (0 : UInt8).toNat = 0 := rfl
  omega

theorem scan_encode (s : Bytes) : scan decodedChar (encode s) = some s := by
  have hread : ∀ c ∈ reserved,
      decodedChar (hexDigit (c.toNat / 16)) (hexDigit (c.toNat % 16)) = some c := by decide +kernel
  induction s with
  | nil => rfl
  | cons c s ih =>
    rw [encode, flatMap_cons, ← encode, appendEncodedChar]
    split
    next hc => rw [cons_append, cons_append, cons_append, nil_append, scan, hread c hc, ih]; rfl
    next hc =>
      have hpercent : c ≠ 0x25 := by
        rintro rfl
        exact hc (by decide)
      simp [scan, hpercent, ih]

theorem Stops.text_append (p : Piece) (h : Stops s) : Stops (p.text ++ s) := by
  obtain ⟨pieces, rest, rfl, hstop⟩ := h
  exact ⟨p :: pieces, rest, by simp, hstop⟩

theorem scan_eq_none_iff (s : Bytes) : scan decodedChar s = none ↔ Stops s := by
  constructor
  · intro h
    fun_induction scan decodedChar s with
    | case1 a b s ih =>
      cases hread : decodedChar a b with
      | none =>
        have hzero := (decodedChar_eq_none_iff a b).mp hread
        exact ⟨[], a :: b :: s, rfl, .inr ⟨a, b, s, rfl, hzero⟩⟩
      | some ch => exact (ih (by simpa [hread] using h)).text_append (.escape a b)
    | case2 rest hcut =>
      refine ⟨[], rest, rfl, .inl ?_⟩
      match rest with
      | [] | [_] => simp
      | a :: b :: s => exact absurd rfl (hcut a b s)
    | case3 c s _ hc ih => exact (ih (by simpa using h)).text_append (.plain c (by simpa using hc))
    | case4 => cases h
  · rintro ⟨pieces, rest, rfl, hstop⟩
    induction pieces with
    | nil =>
      obtain hcut | ⟨a, b, s, rfl, hzero⟩ := hstop
      · match rest with
        | [] | [_] => rfl
        | _ :: _ :: _ => simp at hcut
      · simp [scan, (decodedChar_eq_none_iff a b).mpr hzero]
    | cons p pieces ih =>
      cases p with
      | plain c hc => simpa [Piece.text, scan, hc] using ih
      | escape a b => simp [Piece.text, scan, ih]

theorem scan_of_escapes {q : UInt8 → UInt8 → Bool} (hs : Escapes q s = true)
    (hq : ∀ a b, q a b = true →
      hexPair a b = true ∧ decodedChar a b = some (Piece.escape a b).byte) :
    ∃ t, scan decodedChar s = some t ∧ Unescaped s t := by
  fun_induction scan decodedChar s with
  | case1 a b s ih =>
    simp only [Escapes, tails, all_cons, Bool.and_eq_true] at hs
    obtain ⟨hhex, hread⟩ := hq a b hs.1
    obtain ⟨t, ht, pieces, rfl, rfl, hpieces⟩ := ih hs.2.2.2
    refine ⟨_, by rw [hread, ht]; rfl, .escape a b :: pieces, rfl, rfl, fun a' b' hmem => ?_⟩
    cases hmem with
    | head => exact hhex
    | tail _ hmem => exact hpieces a' b' hmem
  | case2 rest hcut =>
    match rest with
    | [] | [_] => simp [Escapes] at hs
    | a :: b :: s => exact absurd rfl (hcut a b s)
  | case3 c s _ hc ih =>
    rw [Escapes, tails, all_cons, Bool.and_eq_true] at hs
    obtain ⟨t, ht, pieces, rfl, rfl, hpieces⟩ := ih hs.2
    exact ⟨_, by rw [ht]; rfl, .plain c (by simpa using hc) :: pieces, rfl, rfl,
      by simpa using hpieces⟩
  | case4 => exact ⟨[], rfl, [], rfl, rfl, by simp⟩

/-- Text is decoded as it was encoded and escapes as what they stand for, and what is not
well-formed is rejected unless every escape met reads as some digit. -/
theorem decode_iff (s : Bytes) :
    (decode (encode s) = s ∧ (Escapes hexPair s = false → decode s = []) ∧
      (Escapes (fun a b => hexPair a b && (a != 0x30 || b != 0x30)) s = true →
        Unescaped s (decode s))) ↔ Escapes hexPair s = true ∨ Stops s := by
  have hencode : decode (encode s) = s := by rw [decode, scan_encode]; rfl
  have hescapes (h : Escapes (fun a b => hexPair a b && (a != 0x30 || b != 0x30)) s = true) :
      Unescaped s (decode s) := by
    obtain ⟨t, ht, hunescaped⟩ := scan_of_escapes h fun a b hab => by
      simp only [Bool.and_eq_true, Bool.or_eq_true, bne_iff_ne] at hab
      exact ⟨hab.1, decodedChar_of_hexPair hab.1 hab.2⟩
    rw [decode, ht]
    exact hunescaped
  rw [and_iff_right hencode, and_iff_left hescapes, ← scan_eq_none_iff, decode]
  cases hs : Escapes hexPair s with
  | true => simp
  | false =>
    cases hscan : scan decodedChar s with
    | none => simp
    | some t =>
      have : t ≠ [] := by
        rintro rfl
        cases eq_nil_of_scan hscan
        cases hs
      simpa using this

/-- `%1g` reads as the byte 1. -/
theorem decode_partial_digit : Escapes hexPair [0x25, 0x31, 0x67] = false ∧
    decode [0x25, 0x31, 0x67] = [1] := by decide

end AndroidEmu.Base.Uri
