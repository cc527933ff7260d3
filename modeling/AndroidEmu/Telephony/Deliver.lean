import AndroidEmu.CS.Division
import AndroidEmu.Telephony.DeliverReaders

/-!
# Making SMS-DELIVER units

`parseDeliver` and `gsmText` follow 3GPP TS 23.040 and 3GPP TS 23.038, and are not translated from
the source. The number of units comes from the number of septets, but a character of two septets is
not divided between units. For UCS-2 the number of characters is compared with a number of bytes:
from 71 to 140 characters are divided without regard to the headers.
-/

namespace AndroidEmu.Telephony

open CS List Option

variable {sender : SmsAddress} {timestamp : SmsTimeStamp}

/-! ### The standard -/

/-- The character of a code after an escape. A code that has none is read without the escape. -/
def extensionChar (c : ℕ) : ℕ :=
  if gsm7bitsExtendToUnicode.getD c 0 ≠ 0 then gsm7bitsExtendToUnicode.getD c 0
  else if c = gsm7bitsEscape then 0x20
  else defaultAlphabet.getD c 0x20

/-- The characters of septets, after an escape or not. -/
def gsmTextFrom : Bool → List ℕ → List ℕ
  | _, [] => []
  | true, c :: values => extensionChar c :: gsmTextFrom false values
  | false, c :: values =>
    if c = gsm7bitsEscape then gsmTextFrom true values
    else defaultAlphabet.getD c 0x20 :: gsmTextFrom false values

def gsmText (values : List ℕ) : List ℕ := gsmTextFrom false values

def ucs2Text : Bytes → List ℕ
  | hi :: lo :: bs => (hi.toNat * 256 + lo.toNat) :: ucs2Text bs
  | _ => []

structure Concatenation where
  reference : ℕ
  count : ℕ
  index : ℕ
  deriving DecidableEq

/-- What a unit says: its place in a concatenated message, the size of its user data in septets
or octets, and its text. -/
structure Delivered where
  concatenation : Option Concatenation
  gsm7 : Bool
  size : ℕ
  text : List ℕ
  deriving DecidableEq

/-- A header with the element of a concatenated message, and its length in bytes. -/
def parseHeader : Bytes → Option (Concatenation × ℕ)
  | len :: element :: elementLen :: reference :: count :: index :: _ =>
    if len = 5 ∧ element = 0 ∧ elementLen = 3 then
      some (⟨reference.toNat, count.toNat, index.toNat⟩, 6)
    else none
  | _ => none

def parseUserData (concatenation : Option Concatenation) (header : ℕ) (coding : UInt8) (size : ℕ)
    (data : Bytes) : Option Delivered :=
  if coding = 0 ∧ data.length = (7 * size + 7) / 8 then
    some ⟨concatenation, true, size,
      gsmText ((groups 7 size (leNat data)).drop ((8 * header + 6) / 7))⟩
  else if coding = 8 ∧ data.length = size then
    some ⟨concatenation, false, size, ucs2Text (data.drop header)⟩
  else none

/-- An SMS-DELIVER unit behind the address of a service centre. -/
def parseDeliver (bytes : Bytes) : Option Delivered :=
  match bytes.drop (1 + (bytes.headD 0).toNat) with
  | mti :: len :: _ :: rest =>
    match rest.drop ((len.toNat + 1) / 2) with
    | _ :: coding :: rest =>
      match rest.drop 7 with
      | size :: data =>
        if mti.toNat % 4 ≠ 0 then none
        else if mti.toNat / 64 % 2 = 1 then do
          let (concatenation, header) ← parseHeader data
          parseUserData (some concatenation) header coding size.toNat data
        else parseUserData none 0 coding size.toNat data
      | _ => none
    | _ => none
  | _ => none

/-- The units deliver a text: together they say it, none is too large, and of several each says
the reference, their number and its own index. -/
def Delivers (pdus : List SmsPdu) (cs : List ℕ) (reference : ℕ) : Prop :=
  ∃ parts : List Delivered,
    pdus.map (fun pdu => parseDeliver pdu.bytes) = parts.map some ∧
    parts.flatMap Delivered.text = cs ∧
    (∀ part ∈ parts, part.size ≤ if part.gsm7 then 160 else 140) ∧
    (1 < parts.length → ∀ (i : ℕ) (part : Delivered), parts[i]? = some part →
      part.concatenation = some ⟨reference, parts.length, i + 1⟩)

/-! ### Texts in the GSM alphabet -/

/-- A character that the source has in its tables. -/
def InTables (c : ℕ) : Prop := unicharToGsm7Count c ≠ 0

instance : DecidablePred InTables := fun _ => inferInstanceAs (Decidable (_ ≠ _))

/-- The character zero, which is written as an escape, and the one that the source has in the
place of another. -/
def Misplaced (c : ℕ) : Prop := c = 0 ∨ c = 0x147

instance : DecidablePred Misplaced := fun _ => inferInstanceAs (Decidable (_ ∨ _))

variable {c refNum pduCount pduIndex low x header m block : ℕ}

theorem defaultAlphabet_not_misplaced (hc : c ≠ gsm7bitsEscape) :
    ¬ Misplaced (defaultAlphabet.getD c 0x20) := by
  have htable : ∀ c < 128, c ≠ gsm7bitsEscape → ¬ Misplaced (defaultAlphabet.getD c 0x20) := by
    decide +kernel
  by_cases hlt : c < 128
  · exact htable c hlt hc
  · rw [getD_eq_getElem?_getD,
      getElem?_eq_none (show defaultAlphabet.length ≤ c from not_lt.mp hlt)]
    decide

theorem extensionChar_not_misplaced (c : ℕ) : ¬ Misplaced (extensionChar c) := by
  rw [extensionChar]
  split_ifs with hext hescape
  · rintro (hzero | hletter)
    · exact hext hzero
    · have htable : 0x147 ∉ gsm7bitsExtendToUnicode := by decide
      rw [getD_eq_getElem?_getD] at hletter
      cases hget : gsm7bitsExtendToUnicode[c]? with
      | none => simp [hget] at hletter
      | some d =>
        rw [hget] at hletter
        exact htable (hletter ▸ mem_of_getElem? hget)
  · decide
  · exact defaultAlphabet_not_misplaced hescape

variable {values cs as bs rest : List ℕ}

theorem not_misplaced_of_mem_gsmText : ∀ c ∈ gsmText values, ¬ Misplaced c := by
  have hfrom : ∀ escaped, ∀ c ∈ gsmTextFrom escaped values, ¬ Misplaced c := by
    induction values with
    | nil => intro escaped; cases escaped <;> simp [gsmTextFrom]
    | cons v values ih =>
      intro escaped
      cases escaped with
      | true => exact forall_mem_cons.mpr ⟨extensionChar_not_misplaced v, ih false⟩
      | false =>
        rw [gsmTextFrom]
        split_ifs with hescape
        · exact ih true
        · exact forall_mem_cons.mpr ⟨defaultAlphabet_not_misplaced hescape, ih false⟩
  exact hfrom false

theorem gsmText_septets (hcs : ∀ c ∈ cs, InTables c ∧ ¬ Misplaced c) :
    gsmText (septets cs) = cs := by
  have htable : ∀ nn < 128, ¬ Misplaced (gsm7bitsToUnicode.getD nn 0) →
      nn ≠ gsm7bitsEscape ∧ defaultAlphabet.getD nn 0x20 = gsm7bitsToUnicode.getD nn 0 := by
    decide +kernel
  induction cs with
  | nil => rfl
  | cons c cs ih =>
    obtain ⟨⟨hc, hplace⟩, hcs⟩ := forall_mem_cons.mp hcs
    have hsplit : septets (c :: cs) = charSeptets c ++ septets cs := flatMap_cons
    rw [hsplit]
    cases kind c with
    | @basic nn h hseptets =>
      obtain ⟨hlt, hget⟩ := unicharToGsm7_eq_some h
      have hcode : gsm7bitsToUnicode.getD nn 0 = c := by rw [getD_eq_getElem?_getD, hget, getD_some]
      obtain ⟨hescape, hdefault⟩ := htable nn hlt (hcode ▸ hplace)
      rw [hseptets, singleton_append, gsmText, gsmTextFrom, if_neg hescape, hdefault, hcode]
      exact congrArg (c :: ·) (ih hcs)
    | @extension nn hbasic h hseptets =>
      obtain ⟨hlt, hget⟩ := unicharToGsm7Extend_eq_some h
      have hcode : gsm7bitsExtendToUnicode.getD nn 0 = c := by
        rw [getD_eq_getElem?_getD, hget, getD_some]
      have hpos : c ≠ 0 := fun hzero => hplace (.inl hzero)
      have hchar : extensionChar nn = c := by rw [extensionChar, hcode, if_pos hpos]
      rw [hseptets]
      change extensionChar nn :: gsmText (septets cs) = _
      rw [hchar, ih hcs]
    | unknown hbasic hext hseptets =>
      exact absurd (by rw [unicharToGsm7Count, hbasic, hext]; rfl) hc

/-! ### One unit -/

theorem parseDeliver_unit (mti coding size : UInt8) (data : Bytes) :
    parseDeliver (deliverUnit mti sender coding timestamp (size :: data)).bytes =
      if mti.toNat % 4 ≠ 0 then none
      else if mti.toNat / 64 % 2 = 1 then do
        let (concatenation, header) ← parseHeader data
        parseUserData (some concatenation) header coding size.toNat data
      else parseUserData none 0 coding size.toNat data := by
  have hlen : (UInt8.ofNat sender.len).toNat = sender.len :=
    toNat_ofNat_of_lt (sender.len_le.trans_lt (by norm_num))
  have haddress : (addressField sender coding timestamp ++ size :: data).drop
      ((sender.len + 1) / 2) = 0 :: coding :: (timestamp.data ++ size :: data) := by
    rw [addressField, append_assoc, ← length_addressData, drop_left]
    rfl
  have htimestamp : (timestamp.data ++ size :: data).drop 7 = size :: data := by
    rw [← timestamp.length_data, drop_left]
  rw [parseDeliver, bytes_deliverUnit]
  simp only [headD_cons, UInt8.toNat_zero, add_zero, drop_succ_cons, drop_zero, hlen,
    haddress, htimestamp]

theorem parseHeader_userHeader (href : refNum < 256)
    (hcount : pduCount < 256) (hindex : pduIndex + 1 < 256) (data : Bytes) :
    parseHeader (userHeader refNum pduCount pduIndex ++ data) =
      some (⟨refNum, pduCount, pduIndex + 1⟩, 6) := by
  rw [userHeader]
  simp only [cons_append, parseHeader, and_self, if_true]
  rw [toNat_ofNat_of_lt href, toNat_ofNat_of_lt hcount, toNat_ofNat_of_lt hindex]

def concatenationOf (refNum pduCount pduIndex : ℕ) : Option Concatenation :=
  if 1 < pduCount then some ⟨refNum, pduCount, pduIndex + 1⟩ else none

theorem parseUserData_gsm7 {data : Bytes}
    (concatenation : Option Concatenation) (hheader : (8 * header + 6) / 7 = m)
    (hlength : data.length = (7 * (m + (septets cs).length) + 7) / 8) (hlow : low < 128 ^ m)
    (hdata : leNat data = low + 128 ^ m *
      (Nat.ofDigits 128 (septets cs) + 128 ^ (septets cs).length * x)) :
    parseUserData concatenation header 0 (m + (septets cs).length) data =
      some ⟨concatenation, true, m + (septets cs).length, gsmText (septets cs)⟩ := by
  have hgroups : (groups 7 (m + (septets cs).length) (leNat data)).drop m = septets cs := by
    rw [drop_groups, hdata, show (2 ^ 7 : ℕ) = 128 by norm_num,
      Nat.add_mul_div_left _ _ (by positivity), Nat.div_eq_of_lt hlow, zero_add]
    exact groups_ofDigits lt_of_mem_septets x
  rw [parseUserData, if_pos ⟨rfl, hlength⟩, hheader, hgroups]

theorem utf8ToGsm7Count_utf8 (hcs : Basic cs) :
    utf8ToGsm7Count (utf8 cs) = (septets cs).length := by
  rw [utf8ToGsm7Count, utf8Chars_utf8 hcs, length_septets]

theorem smspduCreateDeliver_gsm7 (hcs : Basic cs)
    (href : refNum < 256) (hcount : pduCount < 256) (hindex : pduIndex + 1 < 256)
    (hsize : (septets cs).length ≤ if 1 < pduCount then 153 else 160) :
    ∃ pdu, smspduCreateDeliver (utf8 cs) true sender timestamp refNum pduCount pduIndex = .ok pdu ∧
      parseDeliver pdu.bytes = some ⟨concatenationOf refNum pduCount pduIndex, true,
        (if 1 < pduCount then 7 else 0) + (septets cs).length, gsmText (septets cs)⟩ := by
  rw [smspduCreateDeliver, userData, utf8ToGsm7Count_utf8 hcs, concatenationOf]
  by_cases hmulti : 1 < pduCount
  · simp only [if_pos hmulti] at hsize ⊢
    obtain ⟨packed, x, hpack, hlength, hvalue⟩ := utf8ToGsm7_spec hcs
      (List.replicate (((septets cs).length * 7 + 1 + 7) / 8) 0) (show 1 < 8 by norm_num)
      (by rw [length_replicate]; omega)
    rw [check_of hsize, hpack]
    refine ⟨_, rfl, ?_⟩
    have hsize' : (UInt8.ofNat ((septets cs).length + 7)).toNat = 7 + (septets cs).length := by
      rw [toNat_ofNat_of_lt (by omega), add_comm]
    -- six bytes of header and a bit are seven septets
    have hheader := leNat_lt (userHeader refNum pduCount pduIndex)
    have hdata : leNat (userHeader refNum pduCount pduIndex ++ packed) =
        leNat (userHeader refNum pduCount pduIndex) + 128 ^ 7 *
          (Nat.ofDigits 128 (septets cs) + 128 ^ (septets cs).length * x) := by
      rw [leNat_append, hvalue, leNat_replicate_zero, Nat.zero_mod, zero_add, ← mul_assoc,
        show (userHeader refNum pduCount pduIndex).length = 6 from rfl,
        show 256 ^ 6 * 2 ^ 1 = 128 ^ 7 by norm_num]
    change parseDeliver (deliverUnit 0x40 sender 0 timestamp
      (UInt8.ofNat ((septets cs).length + 7) ::
        (userHeader refNum pduCount pduIndex ++ packed))).bytes
      = _
    rw [parseDeliver_unit, if_neg (by decide), if_pos (by decide),
      parseHeader_userHeader href hcount hindex, bind_eq_bind, bind_some, hsize']
    refine parseUserData_gsm7 _ rfl ?_ (hheader.trans (by norm_num [userHeader])) hdata
    rw [length_append, hlength, length_replicate]
    simp only [userHeader, length_cons, length_nil]
    omega
  · simp only [if_neg hmulti] at hsize ⊢
    obtain ⟨packed, x, hpack, hlength, hvalue⟩ := utf8ToGsm7_spec hcs
      (List.replicate (((septets cs).length * 7 + 7) / 8) 0) (show 0 < 8 by norm_num)
      (by rw [length_replicate]; omega)
    rw [check_of hsize, hpack]
    refine ⟨_, rfl, ?_⟩
    have hsize' : (UInt8.ofNat (septets cs).length).toNat = 0 + (septets cs).length := by
      rw [toNat_ofNat_of_lt (by omega), zero_add]
    have hdata : leNat packed = 0 + 128 ^ 0 *
        (Nat.ofDigits 128 (septets cs) + 128 ^ (septets cs).length * x) := by
      rw [hvalue, leNat_replicate_zero]
      rfl
    change parseDeliver (deliverUnit 0 sender 0 timestamp
      (UInt8.ofNat (septets cs).length :: packed)).bytes = _
    rw [parseDeliver_unit, if_neg (by decide), if_neg (by decide), hsize']
    refine parseUserData_gsm7 _ rfl ?_ (by norm_num) hdata
    rw [hlength, length_replicate]
    omega

theorem ucs2Text_flatMap (hcs : Basic cs) : ucs2Text (cs.flatMap ucs2Write) = cs := by
  induction cs with
  | nil => rfl
  | cons c cs ih =>
    obtain ⟨hc, hcs⟩ := forall_mem_cons.mp hcs
    have hchar : (UInt8.ofNat (c / 256)).toNat * 256 + (UInt8.ofNat c).toNat = c := by
      rw [toNat_ofNat_of_lt (by omega), UInt8.toNat_ofNat']
      omega
    change ((UInt8.ofNat (c / 256)).toNat * 256 + (UInt8.ofNat c).toNat) ::
      ucs2Text (cs.flatMap ucs2Write) = _
    rw [hchar, ih hcs]

theorem length_flatMap_ucs2Write (cs : List ℕ) : (cs.flatMap ucs2Write).length = 2 * cs.length := by
  induction cs with
  | nil => rfl
  | cons c cs ih =>
    rw [flatMap_cons, length_append, length_cons]
    change 2 + _ = _
    omega

theorem smspduCreateDeliver_ucs2 (hcs : Basic cs) (href : refNum < 256) (hcount : pduCount < 256)
    (hindex : pduIndex + 1 < 256) (hsize : cs.length * 2 ≤ if 1 < pduCount then 134 else 140) :
    ∃ pdu, smspduCreateDeliver (utf8 cs) false sender timestamp refNum pduCount pduIndex = .ok pdu ∧
      parseDeliver pdu.bytes = some ⟨concatenationOf refNum pduCount pduIndex, false,
        (if 1 < pduCount then 6 else 0) + cs.length * 2, cs⟩ := by
  have htext : ucs2Text (utf8ToUcs2 (utf8 cs)) = cs := by
    rw [utf8ToUcs2, utf8Chars_utf8 hcs, ucs2Text_flatMap hcs]
  have hlength : (utf8ToUcs2 (utf8 cs)).length = cs.length * 2 := by
    rw [utf8ToUcs2, utf8Chars_utf8 hcs, length_flatMap_ucs2Write, mul_comm]
  rw [smspduCreateDeliver, userData, if_neg (by decide), utf8Chars_utf8 hcs, concatenationOf]
  by_cases hmulti : 1 < pduCount
  · simp only [if_pos hmulti] at hsize ⊢
    rw [check_of hsize]
    refine ⟨_, rfl, ?_⟩
    have hsize' : (UInt8.ofNat (cs.length * 2 + 6)).toNat = 6 + cs.length * 2 := by
      rw [toNat_ofNat_of_lt (by omega), add_comm]
    change parseDeliver (deliverUnit 0x40 sender 8 timestamp (UInt8.ofNat (cs.length * 2 + 6) ::
      (userHeader refNum pduCount pduIndex ++ utf8ToUcs2 (utf8 cs)))).bytes = _
    rw [parseDeliver_unit, if_neg (by decide), if_pos (by decide),
      parseHeader_userHeader href hcount hindex, bind_eq_bind, bind_some, hsize']
    simp only [parseUserData]
    rw [if_neg (by simp), if_pos,
      show (6 : ℕ) = (userHeader refNum pduCount pduIndex).length from rfl, drop_left, htext]
    exact ⟨trivial, by rw [length_append, hlength]; rfl⟩
  · simp only [if_neg hmulti] at hsize ⊢
    rw [check_of hsize]
    refine ⟨_, rfl, ?_⟩
    have hsize' : (UInt8.ofNat (cs.length * 2)).toNat = 0 + cs.length * 2 := by
      rw [toNat_ofNat_of_lt (by omega), zero_add]
    change parseDeliver (deliverUnit 0 sender 8 timestamp (UInt8.ofNat (cs.length * 2) ::
      utf8ToUcs2 (utf8 cs))).bytes = _
    rw [parseDeliver_unit, if_neg (by decide), if_neg (by decide), hsize', parseUserData,
      if_neg (by simp), if_pos, drop_zero, htext]
    exact ⟨rfl, by rw [hlength, zero_add]⟩

/-! ### Dividing a text -/

theorem septetCount_pos (c : ℕ) : 0 < septetCount c := by
  rw [septetCount]
  split_ifs with hzero
  · norm_num
  · omega

theorem weight_septetCount (cs : List ℕ) : weight septetCount cs = (septets cs).length :=
  (length_septets cs).symm

theorem Basic.append (h : Basic (as ++ bs)) : Basic as ∧ Basic bs :=
  forall_mem_append.mp h

theorem utf8SkipGsm7_spec (hcs : Basic cs) (n : ℕ) :
    ∃ as bs, Takes septetCount n cs as bs ∧ utf8SkipGsm7 (utf8 cs) n = utf8 bs := by
  have hloop : ∀ fuel n (cs : List ℕ), Basic cs → n ≤ fuel →
      ∃ as bs, Takes septetCount n cs as bs ∧ utf8SkipGsm7Loop fuel (utf8 cs) n = utf8 bs := by
    intro fuel
    induction fuel with
    | zero =>
      intro n cs _ hn
      exact ⟨[], cs, ⟨rfl, by simp, fun b _ => by have := septetCount_pos b; simp; omega⟩, rfl⟩
    | succ fuel ih =>
      intro n cs hcs hn
      by_cases hzero : n = 0
      · refine ⟨[], cs, ⟨rfl, by simp, fun b _ => ?_⟩, if_pos hzero⟩
        have := septetCount_pos b
        simp
        omega
      rw [utf8SkipGsm7Loop, if_neg hzero]
      cases cs with
      | nil => exact ⟨[], [], ⟨rfl, by simp, by simp⟩, rfl⟩
      | cons c cs =>
        rw [utf8Next_utf8 hcs]
        simp only
        by_cases hbig : n < septetCount c
        · rw [if_pos hbig]
          refine ⟨[], c :: cs, ⟨rfl, by simp, fun b hb => ?_⟩, rfl⟩
          obtain rfl : c = b := by simpa using hb
          simpa using hbig
        have hpos := septetCount_pos c
        obtain ⟨as, bs, htakes, hskip⟩ := ih (n - septetCount c) cs
          (forall_mem_cons.mp hcs).2 (by omega)
        refine ⟨c :: as, bs, ⟨by simp [htakes.append_eq], ?_, fun b hb => ?_⟩, by
          rw [if_neg hbig, hskip]⟩
        · have := htakes.le
          simp only [weight_cons]
          omega
        · have := htakes.full b hb
          simp only [weight_cons]
          omega
  exact hloop n n cs hcs le_rfl

theorem utf8SkipUcs2_spec (hcs : Basic cs) (n : ℕ) :
    ∃ as bs, Takes (fun _ => 2) n cs as bs ∧ utf8SkipUcs2 (utf8 cs) n = utf8 bs := by
  induction n using Nat.strong_induction_on generalizing cs with
  | _ n ih =>
    match n with
    | 0 => exact ⟨[], cs, ⟨rfl, by simp, by simp⟩, by rw [utf8SkipUcs2]; omega⟩
    | 1 => exact ⟨[], cs, ⟨rfl, by simp, by simp⟩, by rw [utf8SkipUcs2]; omega⟩
    | n + 2 =>
      rw [utf8SkipUcs2]
      cases cs with
      | nil => exact ⟨[], [], ⟨rfl, by simp, by simp⟩, rfl⟩
      | cons c cs =>
        obtain ⟨as, bs, htakes, hskip⟩ := ih n (by omega) (forall_mem_cons.mp hcs).2
        rw [utf8Next_utf8 hcs]
        refine ⟨c :: as, bs, ⟨by simp [htakes.append_eq], ?_, fun b hb => ?_⟩, hskip⟩
        · have := htakes.le
          simp only [weight_cons]
          omega
        · have := htakes.full b hb
          simp only [weight_cons]
          omega

/-- The septets or bytes of the last `n` units. -/
def capacities (d : Division) : ℕ → List ℕ
  | 0 => []
  | n + 1 => (if 0 < d.leftover ∧ n = 0 then d.leftover else d.block) :: capacities d n

variable {d : Division}

theorem prefix_capacities_iff (n : ℕ) : ∀ {ms : List ℕ}, ms <+: capacities d n ↔
      ms = capacities d n ∨ ms.length < n ∧ ms = List.replicate ms.length d.block := by
  induction n with
  | zero => simp [capacities]
  | succ n ih =>
    intro ms
    cases ms with
    | nil => simp
    | cons m ms =>
      rw [capacities, cons_prefix_cons, ih, length_cons, replicate_succ, cons.injEq, cons.injEq]
      by_cases hlast : n = 0
      · subst hlast
        simp
      rw [if_neg (fun h => hlast h.2)]
      constructor
      · rintro ⟨rfl, rfl | ⟨hlt, heq⟩⟩
        · exact .inl ⟨rfl, rfl⟩
        · exact .inr ⟨by omega, rfl, heq⟩
      · rintro (⟨rfl, rfl⟩ | ⟨hlt, rfl, heq⟩)
        · exact ⟨rfl, .inl rfl⟩
        · exact ⟨rfl, .inr ⟨by omega, heq⟩⟩

theorem sum_capacities (n : ℕ) : (capacities d n).sum =
    if n = 0 then 0
    else if 0 < d.leftover then d.block * (n - 1) + d.leftover else d.block * n := by
  induction n with
  | zero => rfl
  | succ n ih =>
    rw [capacities, sum_cons, ih]
    by_cases hlast : n = 0
    · subst hlast
      by_cases hleft : 0 < d.leftover <;> simp [hleft]
    · obtain ⟨m, rfl⟩ : ∃ m, n = m + 1 := ⟨n - 1, by omega⟩
      simp only [if_neg hlast, if_neg (fun h : 0 < d.leftover ∧ m + 1 = 0 => hlast h.2),
        Nat.add_sub_cancel, if_neg (Nat.succ_ne_zero _), mul_add]
      split_ifs <;> omega

theorem length_capacities (d : Division) (n : ℕ) : (capacities d n).length = n := by
  induction n with
  | zero => rfl
  | succ n ih => rw [capacities, length_cons, ih]

theorem le_block_of_mem_capacities (h : d.leftover ≤ d.block) (n : ℕ) :
    ∀ m ∈ capacities d n, m ≤ d.block := by
  induction n with
  | zero => simp [capacities]
  | succ n ih =>
    refine forall_mem_cons.mpr ⟨?_, ih⟩
    split_ifs
    · exact h
    · exact le_rfl

theorem Division.of_spec (hblock : 0 < block) (size : ℕ) :
    (capacities (.of block size) (Division.of block size).numPdus).sum = size ∧
      (Division.of block size).leftover ≤ block ∧
      ∀ k, k < (Division.of block size).numPdus ↔ block * k < size := by
  have hdiv := Nat.div_add_mod size block
  have hmod := Nat.mod_lt size hblock
  have hleft : (Division.of block size).leftover = size % block := by
    change size - size / block * block = _
    rw [mul_comm]
    omega
  have hnum : (Division.of block size).numPdus =
      if 0 < size % block then size / block + 1 else size / block := by
    rw [← hleft]
    rfl
  by_cases hrest : 0 < size % block
  · rw [if_pos hrest] at hnum
    refine ⟨?_, by omega, fun k => ?_⟩
    · rw [sum_capacities, hnum, if_neg (Nat.succ_ne_zero _), hleft, if_pos hrest,
        Nat.add_sub_cancel]
      exact hdiv
    · rw [hnum, Nat.lt_succ_iff]
      constructor
      · intro hk
        have := Nat.mul_le_mul_left block hk
        omega
      · intro hk
        by_contra hlt
        have := Nat.mul_le_mul_left block (show size / block + 1 ≤ k by omega)
        rw [mul_add] at this
        omega
  · rw [if_neg hrest] at hnum
    have hsize : block * (size / block) = size := by omega
    refine ⟨?_, by omega, fun k => ?_⟩
    · rw [sum_capacities, if_neg (show ¬ 0 < (Division.of block size).leftover by omega), hnum]
      split_ifs with hzero
      · rw [hzero] at hsize
        omega
      · exact hsize
    · rw [hnum]
      nth_rewrite 2 [← hsize]
      exact (Nat.mul_lt_mul_left hblock).symm

variable {part : ℕ → List ℕ → Delivered}

theorem deliverUnits_spec {useGsm7 : Bool} {w : ℕ → ℕ}
    (hskip : ∀ {cs : List ℕ}, Basic cs → ∀ skip, ∃ as bs, Takes w skip cs as bs ∧
      (if useGsm7 then utf8SkipGsm7 (utf8 cs) skip else utf8SkipUcs2 (utf8 cs) skip) = utf8 bs)
    (hunit : ∀ {as : List ℕ}, Basic as → weight w as ≤ d.block → ∀ index < d.numPdus, ∃ pdu,
      smspduCreateDeliver (utf8 as) useGsm7 sender timestamp refNum d.numPdus index = .ok pdu ∧
        parseDeliver pdu.bytes = some (part index as))
    (hleft : d.leftover ≤ d.block) (n : ℕ) :
    ∀ {cs : List ℕ}, Basic cs → n ≤ d.numPdus →
      ∃ pdus parts rest, deliverUnits useGsm7 sender timestamp refNum d n (utf8 cs) = .ok pdus ∧
        Divides w (capacities d n) cs parts rest ∧
        pdus.map (fun pdu => parseDeliver pdu.bytes) =
          parts.mapIdx fun i as => some (part (d.numPdus - n + i) as) := by
  induction n with
  | zero => exact fun {cs} _ _ => ⟨[], [], cs, rfl, .nil cs, rfl⟩
  | succ n ih =>
    intro cs hcs hn
    obtain ⟨as, bs, htakes, hnext⟩ :=
      hskip hcs (if 0 < d.leftover ∧ n = 0 then d.leftover else d.block)
    obtain rfl := htakes.append_eq
    obtain ⟨has, hbs⟩ := hcs.append
    have hweight : weight w as ≤ d.block := by
      have := htakes.le
      split_ifs at this <;> omega
    obtain ⟨pdu, hpdu, hparse⟩ := hunit has hweight (d.numPdus - (n + 1)) (by omega)
    obtain ⟨pdus, parts, rest, hpdus, hdivides, hparses⟩ := ih hbs (by omega)
    have htext :
        (utf8 (as ++ bs)).take ((utf8 (as ++ bs)).length - (utf8 bs).length) = utf8 as := by
      rw [utf8, flatMap_append, length_append]
      exact take_left' (by rw [utf8]; omega)
    refine ⟨pdu :: pdus, as :: parts, rest, ?_, .cons htakes hdivides, ?_⟩
    · simp only [deliverUnits, hnext, htext, hpdu, hpdus, Checked.ok_bind, Checked.pure_eq_ok]
    · rw [map_cons, hparse, hparses, mapIdx_cons, add_zero]
      congr 2
      funext i as
      rw [show d.numPdus - n + i = d.numPdus - (n + 1) + (i + 1) by omega]

variable {parts : List (List ℕ)}

/-- A division of what a text weighs leaves nothing if and only if the text has a border at
every block. -/
theorem Divides.rest_eq_nil_iff_blocks {w : ℕ → ℕ} (hblock : 0 < block) (hpos : ∀ x, 0 < w x)
    (h : Divides w (capacities (.of block (weight w cs)) (Division.of block (weight w cs)).numPdus)
      cs parts rest) :
    rest = [] ↔ ∀ k, block * k < weight w cs → IsBorder w cs (block * k) := by
  obtain ⟨hsum, -, hblocks⟩ := Division.of_spec hblock (weight w cs)
  rw [h.rest_eq_nil_iff hsum.le hpos, and_iff_right hsum.symm]
  constructor
  · intro hborders k hk
    have hfront : List.replicate k block <+:
        capacities (.of block (weight w cs)) (Division.of block (weight w cs)).numPdus :=
      (prefix_capacities_iff _).mpr (.inr ⟨by simpa using (hblocks k).mpr hk, by
        rw [length_replicate]
        rfl⟩)
    have := hborders _ hfront
    rwa [sum_replicate, smul_eq_mul, mul_comm] at this
  · intro hborders ms hms
    rcases (prefix_capacities_iff _).mp hms with rfl | ⟨hlt, heq⟩
    · exact ⟨cs, [], append_nil cs, hsum.symm⟩
    · rw [heq, sum_replicate, smul_eq_mul, mul_comm]
      exact hborders _ ((hblocks _).mp hlt)

/-! ### Texts that are delivered -/

/-- Units that say the parts of a text, each with its size and place, deliver what the parts are
together. -/
theorem delivers_iff {pdus : List SmsPdu} {text : List ℕ → List ℕ}
    (hparses : pdus.map (fun pdu => parseDeliver pdu.bytes) =
      parts.mapIdx fun i as => some (part i as))
    (htext : ∀ i as, (part i as).text = text as)
    (hsize : ∀ i, ∀ as ∈ parts, (part i as).size ≤ if (part i as).gsm7 then 160 else 140)
    (hconcatenation : ∀ i as, (part i as).concatenation = concatenationOf refNum parts.length i) :
    Delivers pdus cs refNum ↔ parts.flatMap text = cs := by
  have hmap : parts.mapIdx (fun i as => some (part i as)) = (parts.mapIdx part).map some := by
    refine ext_getElem? fun i => ?_
    rw [getElem?_mapIdx, getElem?_map, getElem?_mapIdx, Option.map_map]
    rfl
  have htexts : (parts.mapIdx part).flatMap Delivered.text = parts.flatMap text := by
    rw [flatMap_def]
    congr 1
    refine ext_getElem? fun i => ?_
    rw [getElem?_map, getElem?_mapIdx, getElem?_map, Option.map_map]
    exact congrArg (Option.map · _) (funext fun as => htext i as)
  rw [hmap] at hparses
  constructor
  · rintro ⟨parts', hparses', hcs, -, -⟩
    obtain rfl : parts.mapIdx part = parts' :=
      (map_injective_iff.mpr (some_injective _)) (hparses.symm.trans hparses')
    exact htexts.symm.trans hcs
  · intro hcs
    refine ⟨parts.mapIdx part, hparses, htexts.trans hcs, ?_, ?_⟩
    · intro p hp
      obtain ⟨i, hi, rfl⟩ := mem_mapIdx.mp hp
      exact hsize i _ (getElem_mem hi)
    · intro hmulti i p hp
      rw [length_mapIdx] at hmulti ⊢
      rw [getElem?_mapIdx] at hp
      obtain ⟨as, -, rfl⟩ := map_eq_some_iff.mp hp
      rw [hconcatenation, concatenationOf, if_pos hmulti]

/-- The texts that are delivered. In the GSM alphabet, no character is misplaced, and none is at the
border of two units. In UCS-2, one unit is enough, or there are so many characters that there is
room for the headers. -/
def DeliverFits (cs : List ℕ) : Prop :=
  if ∀ c ∈ cs, InTables c then
    (∀ c ∈ cs, ¬ Misplaced c) ∧ (weight septetCount cs ≤ 160 ∨
      ∀ k, 153 * k < weight septetCount cs → IsBorder septetCount cs (153 * k))
  else cs.length ≤ 70 ∨ 140 < cs.length

theorem utf8CheckGsm7_utf8 (hcs : Basic cs) :
    utf8CheckGsm7 (utf8 cs) = decide (∀ c ∈ cs, InTables c) := by
  rw [utf8CheckGsm7, utf8Chars_utf8 hcs, Bool.eq_iff_iff, List.all_eq_true, decide_eq_true_iff]
  simp only [InTables, decide_eq_true_iff]

section Texts

variable {refNum : ℕ} {cs : List ℕ}

/-- What the units of a text in the GSM alphabet say. -/
def gsm7Part (refNum pduCount : ℕ) (i : ℕ) (as : List ℕ) : Delivered :=
  ⟨concatenationOf refNum pduCount i, true, (if 1 < pduCount then 7 else 0) + (septets as).length,
    gsmText (septets as)⟩

/-- What the units of a text in UCS-2 say. -/
def ucs2Part (refNum pduCount : ℕ) (i : ℕ) (as : List ℕ) : Delivered :=
  ⟨concatenationOf refNum pduCount i, false, (if 1 < pduCount then 6 else 0) + as.length * 2, as⟩

/-- The parts of a text in the GSM alphabet are the text if and only if no character is
misplaced and nothing is left. -/
theorem flatMap_gsmText_iff (htables : ∀ c ∈ cs, InTables c)
    (happend : parts.flatten ++ rest = cs) :
    parts.flatMap (fun as => gsmText (septets as)) = cs ↔
      (∀ c ∈ cs, ¬ Misplaced c) ∧ rest = [] := by
  have hsame : (∀ c ∈ cs, ¬ Misplaced c) →
      parts.flatMap (fun as => gsmText (septets as)) = parts.flatten := by
    intro hplaces
    have hmap : parts.map (fun as => gsmText (septets as)) = parts.map id := by
      refine map_congr_left fun as has => gsmText_septets fun c hc => ?_
      have hmem : c ∈ cs := by
        rw [← happend]
        exact mem_append_left rest (mem_flatten_of_mem has hc)
      exact ⟨htables c hmem, hplaces c hmem⟩
    rw [flatMap_def, hmap, List.map_id]
  constructor
  · intro heq
    have hplaces : ∀ c ∈ cs, ¬ Misplaced c := by
      intro c hc
      rw [← heq] at hc
      obtain ⟨as, -, hc⟩ := mem_flatMap.mp hc
      exact not_misplaced_of_mem_gsmText c hc
    refine ⟨hplaces, ?_⟩
    rw [hsame hplaces, ← happend] at heq
    exact self_eq_append_right.mp heq
  · rintro ⟨hplaces, rfl⟩
    rw [hsame hplaces, ← happend, append_nil]

/-- A text in the GSM alphabet is divided into units, and these deliver it if and only if no
character is misplaced or at the border of two units. -/
theorem deliverUnits_gsm7 (hcs : Basic cs) (htables : ∀ c ∈ cs, InTables c) (href : refNum < 256)
    (hparts : (division (utf8 cs) true).numPdus ≤ 255) :
    ∃ pdus, deliverUnits true sender timestamp refNum (division (utf8 cs) true)
        (division (utf8 cs) true).numPdus (utf8 cs) = .ok pdus ∧
      (Delivers pdus cs refNum ↔ (∀ c ∈ cs, ¬ Misplaced c) ∧ (weight septetCount cs ≤ 160 ∨
        ∀ k, 153 * k < weight septetCount cs → IsBorder septetCount cs (153 * k))) := by
  obtain ⟨block, hblock, hd, hsmall⟩ : ∃ block,
      block = (if 160 < weight septetCount cs then 153 else 160) ∧
      division (utf8 cs) true = .of block (weight septetCount cs) ∧ 0 < block := by
    refine ⟨_, rfl, ?_, by split_ifs <;> norm_num⟩
    rw [division, if_pos rfl, utf8ToGsm7Count_utf8 hcs, weight_septetCount]
  rw [hd] at hparts ⊢
  obtain ⟨-, hleft, hblocks⟩ := Division.of_spec hsmall (weight septetCount cs)
  have hunit : ∀ {as : List ℕ}, Basic as → weight septetCount as ≤ block →
      ∀ index < (Division.of block (weight septetCount cs)).numPdus, ∃ pdu,
        smspduCreateDeliver (utf8 as) true sender timestamp refNum
          (Division.of block (weight septetCount cs)).numPdus index = .ok pdu ∧
        parseDeliver pdu.bytes = some
          (gsm7Part refNum (Division.of block (weight septetCount cs)).numPdus index as) := by
    intro as has hweight index hindex
    refine smspduCreateDeliver_gsm7 has href (by omega) (by omega) ?_
    rw [← weight_septetCount]
    have := hblocks 1
    split_ifs at hblock ⊢ <;> omega
  obtain ⟨pdus, parts, rest, hpdus, hdivides, hparses⟩ := deliverUnits_spec
    (fun hcs skip => utf8SkipGsm7_spec hcs skip) hunit hleft _ hcs le_rfl
  have hlength : parts.length = (Division.of block (weight septetCount cs)).numPdus :=
    hdivides.length_eq.trans (length_capacities _ _)
  simp only [Nat.sub_self, zero_add] at hparses
  refine ⟨pdus, hpdus, ?_⟩
  have htext : ∀ (i : ℕ) (as : List ℕ), (gsm7Part refNum
      (Division.of block (weight septetCount cs)).numPdus i as).text = gsmText (septets as) :=
    fun _ _ => rfl
  rw [delivers_iff hparses htext ?_ (fun _ _ => by rw [hlength]; rfl),
    flatMap_gsmText_iff htables hdivides.flatten_append,
    Divides.rest_eq_nil_iff_blocks hsmall septetCount_pos hdivides]
  · refine and_congr_right' ?_
    split_ifs at hblock with hmulti
    · rw [hblock, or_iff_right (by omega)]
    · -- one unit, and a border before it
      refine iff_of_true (fun k hk => ?_) (.inl (by omega))
      rw [hblock] at hk ⊢
      obtain rfl : k = 0 := by omega
      exact ⟨[], cs, rfl, rfl⟩
  · intro i as has
    have hweight := hdivides.weight_le (le_block_of_mem_capacities hleft _) as has
    have hone := hblocks 1
    change (if _ then 7 else 0) + (septets as).length ≤ 160
    change weight septetCount as ≤ block at hweight
    rw [← weight_septetCount]
    split_ifs at hblock ⊢ <;> omega

theorem weight_two (cs : List ℕ) : weight (fun _ => 2) cs = 2 * cs.length := by
  induction cs with
  | nil => rfl
  | cons c cs ih =>
    rw [weight_cons, length_cons]
    omega

theorem deliverUnits_ucs2 (hcs : Basic cs) (href : refNum < 256) (hsmall : 0 < block)
    (heven : block % 2 = 0) (hblock : block ≤ if block < 2 * cs.length then 134 else 140)
    (hparts : (Division.of block (2 * cs.length)).numPdus ≤ 255) :
    ∃ pdus, deliverUnits false sender timestamp refNum (.of block (2 * cs.length))
        (Division.of block (2 * cs.length)).numPdus (utf8 cs) = .ok pdus ∧
      Delivers pdus cs refNum := by
  rw [← weight_two] at hblock hparts ⊢
  obtain ⟨-, hleft, hblocks⟩ := Division.of_spec hsmall (weight (fun _ => 2) cs)
  have hone := hblocks 1
  have hunit : ∀ {as : List ℕ}, Basic as → weight (fun _ => 2) as ≤ block →
      ∀ index < (Division.of block (weight (fun _ => 2) cs)).numPdus, ∃ pdu,
        smspduCreateDeliver (utf8 as) false sender timestamp refNum
          (Division.of block (weight (fun _ => 2) cs)).numPdus index = .ok pdu ∧
        parseDeliver pdu.bytes = some
          (ucs2Part refNum (Division.of block (weight (fun _ => 2) cs)).numPdus index as) := by
    intro as has hweight index hindex
    refine smspduCreateDeliver_ucs2 has href (by omega) (by omega) ?_
    rw [weight_two] at hweight
    split_ifs at hblock ⊢ <;> omega
  obtain ⟨pdus, parts, rest, hpdus, hdivides, hparses⟩ := deliverUnits_spec
    (fun hcs skip => utf8SkipUcs2_spec hcs skip) hunit hleft _ hcs le_rfl
  have hlength : parts.length = (Division.of block (weight (fun _ => 2) cs)).numPdus :=
    hdivides.length_eq.trans (length_capacities _ _)
  simp only [Nat.sub_self, zero_add] at hparses
  refine ⟨pdus, hpdus, (delivers_iff hparses (fun _ _ => rfl) ?_
    (fun _ _ => by rw [hlength]; rfl)).mpr ?_⟩
  · intro i as has
    have hweight := hdivides.weight_le (le_block_of_mem_capacities hleft _) as has
    change (if _ then 6 else 0) + as.length * 2 ≤ 140
    change weight (fun _ => 2) as ≤ block at hweight
    rw [weight_two] at hweight
    split_ifs at hblock ⊢ <;> omega
  · -- there is a border at every even number
    have hrest : rest = [] := by
      refine (Divides.rest_eq_nil_iff_blocks hsmall (fun _ => by norm_num) hdivides).mpr
        fun k hk => ⟨cs.take (block * k / 2), cs.drop (block * k / 2), take_append_drop _ _, ?_⟩
      have hdvd : block * k % 2 = 0 := by rw [Nat.mul_mod, heven, zero_mul, Nat.zero_mod]
      rw [weight_two] at hk ⊢
      rw [length_take]
      omega
    rw [flatMap_id', ← hdivides.flatten_append, hrest, append_nil]

theorem deliverUnits_ucs2_error (hcs : Basic cs) (hlow : 70 < cs.length) (hhigh : cs.length ≤ 140) :
    deliverUnits false sender timestamp refNum (.of 140 (2 * cs.length))
        (Division.of 140 (2 * cs.length)).numPdus (utf8 cs) = .error .assertion := by
  have hnum : (Division.of 140 (2 * cs.length)).numPdus = 2 := by
    obtain ⟨-, -, hblocks⟩ := Division.of_spec (show 0 < 140 by norm_num) (2 * cs.length)
    have := hblocks 1
    have := hblocks 2
    omega
  obtain ⟨as, bs, htakes, hnext⟩ := utf8SkipUcs2_spec hcs 140
  obtain rfl := htakes.append_eq
  have hlength : as.length = 70 := by
    have hle := htakes.le
    rw [weight_two] at hle
    cases bs with
    | nil => simp at hlow; omega
    | cons b bs =>
      have := htakes.full b rfl
      rw [weight_two] at this
      omega
  have htext : (utf8 (as ++ bs)).take ((utf8 (as ++ bs)).length - (utf8 bs).length) = utf8 as := by
    rw [utf8, flatMap_append, length_append]
    exact take_left' (by rw [utf8]; omega)
  have hunit : smspduCreateDeliver (utf8 as) false sender timestamp refNum 2 0 =
      .error .assertion := by
    rw [smspduCreateDeliver, userData, if_neg (by decide), utf8Chars_utf8 hcs.append.1]
    simp only [if_pos (show 1 < 2 by norm_num), hlength]
    rfl
  rw [hnum, deliverUnits]
  simp only [if_neg
    (show ¬ (0 < (Division.of 140 (2 * (as ++ bs).length)).leftover ∧ 1 = 0) by simp),
    Bool.false_eq_true, if_false]
  rw [show (Division.of 140 (2 * (as ++ bs).length)).block = 140 from rfl,
    hnext, htext, hnum, hunit]
  rfl

end Texts

/-- A text of the basic multilingual plane that takes no more than 255 units is divided into
units without a failed assertion, and these say the text, are not too large and have the
reference, their number and their index, if and only if it fits: in the GSM alphabet, no
character is misplaced and none is at the border of two units; in UCS-2, there are not from 71
to 140 characters. -/
theorem deliver_iff (refNum : ℕ) (href : refNum < 256) (cs : List ℕ) (hcs : Basic cs)
    (hparts : (division (utf8 cs) (utf8CheckGsm7 (utf8 cs))).numPdus ≤ 255) (sender : SmsAddress)
    (timestamp : SmsTimeStamp) :
    (∃ pdus ref, smspduCreateDeliverUtf8 refNum (utf8 cs) sender timestamp = .ok (pdus, ref) ∧
      Delivers pdus cs refNum) ↔ DeliverFits cs := by
  rw [smspduCreateDeliverUtf8, DeliverFits]
  rw [utf8CheckGsm7_utf8 hcs] at hparts ⊢
  by_cases htables : ∀ c ∈ cs, InTables c
  · simp only [decide_eq_true htables, if_pos htables] at hparts ⊢
    obtain ⟨pdus, hpdus, hiff⟩ := deliverUnits_gsm7 hcs htables href hparts
    rw [← hiff, hpdus]
    constructor
    · rintro ⟨pdus', ref, hok, h⟩
      obtain ⟨rfl, -⟩ := Checked.pair_inj hok
      exact h
    · exact fun h => ⟨pdus, _, rfl, h⟩
  · simp only [decide_eq_false htables, if_neg htables] at hparts ⊢
    have hd : division (utf8 cs) false =
        .of (if 140 < cs.length then 134 else 140) (2 * cs.length) := by
      rw [division, if_neg (by decide), utf8Chars_utf8 hcs]
    rw [hd] at hparts ⊢
    by_cases hfits : cs.length ≤ 70 ∨ 140 < cs.length
    · obtain ⟨pdus, hpdus, h⟩ := deliverUnits_ucs2 hcs href (by split_ifs <;> norm_num)
        (by split_ifs <;> norm_num) (by split_ifs <;> omega) hparts
      rw [hpdus]
      exact iff_of_true ⟨pdus, _, rfl, h⟩ hfits
    · rw [if_neg (by omega), deliverUnits_ucs2_error hcs (by omega) (by omega)]
      refine iff_of_false ?_ hfits
      rintro ⟨pdus, ref, hok, -⟩
      cases hok

/-- A text of two units from `+123`. -/
theorem deliver_iff_two_units : (∃ pdus ref, smspduCreateDeliverUtf8 7 (utf8 (replicate 161 0x68))
        ⟨3, 0x91, [0x21, 0xf3, 0, 0, 0, 0, 0, 0, 0, 0], rfl, by decide⟩
        ⟨[0x42, 0x21, 0x43, 0x65, 0x87, 0x09, 0x21], rfl⟩ = .ok (pdus, ref) ∧
      Delivers pdus (replicate 161 0x68) 7) ↔ DeliverFits (replicate 161 0x68) :=
  deliver_iff 7 (by norm_num) _ (by simp [Basic]) (by decide +kernel) _ _

/-- Of 71 characters in UCS-2 no units are made; of a text with a euro sign across the border of
two units the last letter is lost. -/
theorem deliver_fails : ∃ (sender : SmsAddress) (timestamp : SmsTimeStamp),
      smspduCreateDeliverUtf8 0 (utf8 (List.replicate 71 0x4e00)) sender timestamp =
        .error .assertion ∧
      (smspduCreateDeliverUtf8 0
          (utf8 (List.replicate 152 0x61 ++ 0x20ac :: List.replicate 7 0x62)) sender timestamp).map
        (fun r => r.1.map fun pdu => (parseDeliver pdu.bytes).map Delivered.text) =
        .ok [some (List.replicate 152 0x61), some (0x20ac :: List.replicate 6 0x62)] :=
  ⟨⟨3, 0x91, [0x21, 0xf3, 0, 0, 0, 0, 0, 0, 0, 0], rfl, by decide⟩,
    ⟨[0x42, 0x21, 0x43, 0x65, 0x87, 0x09, 0x21], rfl⟩, by decide +kernel, by decide +kernel⟩

end AndroidEmu.Telephony
