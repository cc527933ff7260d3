import AndroidEmu.Telephony.Gsm7
import AndroidEmu.Telephony.Sms

/-!
# Readers of SMS units from the guest

The text is decoded without a look at the end of the unit. The walk over the elements of a user data
header does not leave an element of length zero: the length that is left grows by two in each round.
The text of an SMS-DELIVER is written to a rope that was never initialised.
-/

namespace AndroidEmu.Telephony

open CS Checked List Option

variable {bytes : Bytes} {pdu : SmsPdu}

/-! ### Reads inside the unit -/

variable {i cur shift pad n data : ℕ}

theorem readAt_of_lt {α : Type} {xs : List α} (h : i < xs.length) :
    ∃ x, xs[i]? = some x ∧ readAt xs i = .ok x :=
  ⟨xs[i], getElem?_eq_getElem h, by rw [readAt, getElem?_eq_getElem h]⟩

theorem readAt_isOk {α : Type} {xs : List α} (h : i < xs.length) : (readAt xs i).IsOk :=
  (readAt_of_lt h).imp fun _ => And.right

/-- The byte at a place, and zero behind the end. -/
def byteAt (bytes : Bytes) (i : ℕ) : ℕ := (bytes.getD i 0).toNat

theorem readAt_byteAt (h : i < bytes.length) :
    ∃ b, readAt bytes i = .ok b ∧ b.toNat = byteAt bytes i :=
  (readAt_of_lt h).imp fun _ hb => ⟨hb.2, by rw [byteAt, getD_eq_getElem?_getD, hb.1]; rfl⟩

theorem smsGetByte_eq (cur : ℕ) : smsGetByte bytes cur =
    .ok (if cur < bytes.length then some (byteAt bytes cur, cur + 1) else none) := by
  rw [smsGetByte]
  by_cases h : cur < bytes.length
  · obtain ⟨b, hread, hb⟩ := readAt_byteAt h
    simp [if_pos h, hread, hb]
  · rw [if_neg h, if_neg h]

/-- The semi-octets of bytes, the lower one of a byte first. -/
def semiOctets (bs : Bytes) : List ℕ := bs.flatMap fun b => [b.toNat % 16, b.toNat / 16]

theorem semiOctets_cons (b : UInt8) (bs : Bytes) :
    semiOctets (b :: bs) = b.toNat % 16 :: b.toNat / 16 :: semiOctets bs := rfl

/-- The place of the first semi-octet that ends an address. -/
def addressEnd (bs : Bytes) : ℕ := (semiOctets bs).findIdx fun v => 0xe ≤ v

theorem addressEnd_cons (b : UInt8) (bs : Bytes) : addressEnd (b :: bs) =
      if 0xe ≤ b.toNat % 16 then 0 else if 0xe ≤ b.toNat / 16 then 1 else addressEnd bs + 2 := by
  rw [addressEnd, semiOctets_cons, findIdx_cons, findIdx_cons]
  by_cases hlow : 0xe ≤ b.toNat % 16
  · simp [hlow]
  · by_cases hhigh : 0xe ≤ b.toNat / 16
    · simp [hlow, hhigh]
    · simp [hlow, hhigh, addressEnd]

/-- The loop of `sms_get_sc_address` stops at a semi-octet that ends an address; or it goes
through all bytes, if there is room for them. -/
theorem scAddressLoop_spec (zs : Bytes) :
    ∀ {dlen adjust : ℕ} {data : Bytes}, zs <+: bytes.drop (cur + dlen) → dlen ≤ 10 →
      scAddressLoop bytes cur zs.length dlen adjust data = .ok (
        if addressEnd zs < 2 * zs.length ∧ dlen + addressEnd zs / 2 < 10 then
          some (2 * dlen + addressEnd zs, data ++ zs.take ((addressEnd zs + 1) / 2))
        else if dlen + zs.length ≤ 10 then
          some (2 * (dlen + zs.length) + (if zs = [] then adjust else 1), data ++ zs)
        else none) := by
  induction zs with
  | nil =>
    intro dlen adjust data _ hdlen
    rw [length_nil, scAddressLoop, if_neg (by simp), if_pos (by omega)]
    simp
  | cons c zs ih =>
    intro dlen adjust data hpre hdlen
    obtain ⟨rest, hrest⟩ := hpre
    have hc : readAt bytes (cur + dlen) = .ok c := by
      have : bytes[cur + dlen]? = some c := by
        rw [← head?_drop, ← hrest]
        rfl
      rw [readAt, this]
    have hnext : zs <+: bytes.drop (cur + (dlen + 1)) := by
      refine ⟨rest, ?_⟩
      rw [← add_assoc, ← drop_drop, ← hrest]
      rfl
    rw [length_cons, scAddressLoop, hc, ok_bind, addressEnd_cons]
    by_cases hfull : 10 ≤ dlen
    · rw [if_pos hfull, if_neg (by omega), if_neg (by omega)]
      rfl
    rw [if_neg hfull]
    by_cases hlow : 0xe ≤ c.toNat % 16
    · rw [if_pos hlow, if_pos hlow, if_pos (by omega)]
      simp
    rw [if_neg hlow, if_neg hlow]
    by_cases hhigh : 0xe ≤ c.toNat / 16
    · rw [if_pos hhigh, if_pos hhigh, if_pos (by omega)]
      simp
    rw [if_neg hhigh, if_neg hhigh, ih hnext (by omega)]
    -- two semi-octets and a byte further on
    congr 1
    by_cases hend : addressEnd zs < 2 * zs.length ∧ dlen + 1 + addressEnd zs / 2 < 10
    · rw [if_pos hend, if_pos (by omega),
        show (addressEnd zs + 2 + 1) / 2 = (addressEnd zs + 1) / 2 + 1 by omega,
        take_succ_cons, append_assoc, singleton_append,
        show 2 * (dlen + 1) + addressEnd zs = 2 * dlen + (addressEnd zs + 2) by omega]
    · rw [if_neg hend, if_neg (show ¬ (addressEnd zs + 2 < 2 * (zs.length + 1) ∧
        dlen + (addressEnd zs + 2) / 2 < 10) by omega)]
      simp [add_comm, add_left_comm]

/-- An address is inside the unit, and its digits end or have room. -/
def ScAddressFits (bytes : Bytes) (cur : ℕ) : Prop :=
  cur + 1 + byteAt bytes cur ≤ bytes.length ∧ (byteAt bytes cur ≤ 11 ∨
    addressEnd ((bytes.drop (cur + 2)).take (byteAt bytes cur - 1)) < 20)

instance (bytes : Bytes) (cur : ℕ) : Decidable (ScAddressFits bytes cur) :=
  inferInstanceAs (Decidable (_ ∧ _))

/-- The pointer is left at the digits. -/
theorem smsGetScAddress_place (bytes : Bytes) (cur : ℕ) :
    ∃ r, smsGetScAddress bytes cur = .ok r ∧ r.map Prod.snd =
      if ScAddressFits bytes cur then some (cur + if byteAt bytes cur = 0 then 1 else 2)
      else none := by
  rw [smsGetScAddress]
  by_cases hcur : cur < bytes.length
  · obtain ⟨len, hread, hlen⟩ := readAt_byteAt hcur
    simp only [ScAddressFits, if_pos hcur, hread, ok_bind, ← hlen]
    by_cases hzero : len = 0
    · exact ⟨_, if_pos hzero, by simp [hzero, Nat.succ_le_of_lt hcur]⟩
    have hpos : len.toNat ≠ 0 := fun h => hzero (UInt8.toNat_inj.mp h)
    simp only [if_neg hzero, if_neg hpos]
    by_cases hend : bytes.length < cur + 1 + len.toNat
    · exact ⟨_, if_pos hend, by rw [if_neg (by omega)]; rfl⟩
    obtain ⟨toa, -, htoa⟩ := readAt_of_lt (show cur + 1 < bytes.length by omega)
    have hlength : ((bytes.drop (cur + 2)).take (len.toNat - 1)).length = len.toNat - 1 := by
      rw [length_take, length_drop]
      omega
    have hloop : scAddressLoop bytes (cur + 2)
        ((bytes.drop (cur + 2)).take (len.toNat - 1)).length 0 0 [] = _ :=
      scAddressLoop_spec _ (by exact take_prefix _ _) (by norm_num)
    rw [hlength] at hloop
    simp only [if_neg hend, htoa, ok_bind, hloop]
    split_ifs with h1 h2 h3 h4 h5 <;> first | exact ⟨_, rfl, rfl⟩ | omega
  · exact ⟨none, if_neg hcur, by rw [if_neg (by rw [ScAddressFits]; omega)]; rfl⟩

theorem readMany_spec (n : ℕ) :
    ∀ {cur : ℕ}, cur + n ≤ bytes.length → readMany bytes cur n = .ok ((bytes.drop cur).take n) := by
  induction n with
  | zero => exact fun _ => rfl
  | succ n ih =>
    intro cur hroom
    have hcur : cur < bytes.length := by omega
    rw [readMany, ih (by omega), readAt, getElem?_eq_getElem hcur, ok_bind,
      ok_bind, drop_eq_getElem_cons hcur, take_succ_cons]
    rfl

theorem smsGetAddress_place (bytes : Bytes) (cur : ℕ) :
    ∃ r, smsGetAddress bytes cur = .ok r ∧ r.map Prod.snd =
      if cur + (if byteAt bytes cur = 0 then 1 else 2 + (byteAt bytes cur + 1) / 2) ≤ bytes.length ∧
        byteAt bytes cur ≤ 20 then
        some (cur + if byteAt bytes cur = 0 then 1 else 2 + (byteAt bytes cur + 1) / 2)
      else none := by
  rw [smsGetAddress]
  by_cases hcur : cur < bytes.length
  · obtain ⟨dlen, hread, hdlen⟩ := readAt_byteAt hcur
    rw [if_pos hcur, hread, ok_bind, ← hdlen]
    by_cases hzero : dlen = 0
    · exact ⟨_, if_pos hzero, by simp [hzero, Nat.succ_le_of_lt hcur]⟩
    have hpos : dlen.toNat ≠ 0 := fun h => hzero (UInt8.toNat_inj.mp h)
    simp only [if_neg hzero, if_neg hpos]
    by_cases hend : bytes.length < cur + 1 + 1 + (dlen.toNat + 1) / 2
    · exact ⟨_, if_pos hend, by rw [if_neg (by omega)]; rfl⟩
    obtain ⟨toa, -, htoa⟩ := readAt_of_lt (show cur + 1 < bytes.length by omega)
    simp only [if_neg hend, htoa, ok_bind]
    by_cases hlong : 10 < (dlen.toNat + 1) / 2
    · exact ⟨_, if_pos hlong, by rw [if_neg (by omega)]; rfl⟩
    rw [readMany_spec _ (by omega), if_neg hlong, if_pos (by omega)]
    exact ⟨_, rfl, by simp; omega⟩
  · refine ⟨none, if_neg hcur, ?_⟩
    rw [if_neg]
    · rfl
    · split_ifs <;> omega

theorem smsSkipAddress_eq (bytes : Bytes) (cur : ℕ) : smsSkipAddress bytes cur =
    .ok (if cur + 2 + (byteAt bytes cur + 1) / 2 ≤ bytes.length then
      some (cur + 2 + (byteAt bytes cur + 1) / 2) else none) := by
  rw [smsSkipAddress]
  by_cases hcur : bytes.length < cur + 2
  · rw [if_pos hcur, if_neg (by omega)]
  · obtain ⟨dlen, hread, hdlen⟩ := readAt_byteAt (show cur < bytes.length by omega)
    simp only [if_neg hcur, hread, ok_bind, hdlen]
    by_cases hend : bytes.length < cur + 2 + (byteAt bytes cur + 1) / 2
    · rw [if_pos hend, if_neg (not_le.mpr hend)]
      rfl
    · rw [if_neg hend, if_pos (not_lt.mp hend)]
      rfl

theorem smsGetTimestamp_place (bytes : Bytes) (cur : ℕ) : ∃ r, smsGetTimestamp bytes cur = .ok r ∧
    r.map Prod.snd = if cur + 7 ≤ bytes.length then some (cur + 7) else none := by
  rw [smsGetTimestamp]
  by_cases hend : bytes.length < cur + 7
  · exact ⟨none, if_pos hend, by rw [if_neg (by omega)]; rfl⟩
  · rw [readMany_spec 7 (by omega), if_neg hend, if_pos (by omega)]
    exact ⟨_, rfl, rfl⟩

theorem smsGetCodingScheme_eq (bytes : Bytes) (cur : ℕ) : smsGetCodingScheme bytes cur =
    .ok (if cur < bytes.length then (codingScheme (byteAt bytes cur), cur + 1)
      else (.unknown, cur)) := by
  rw [smsGetCodingScheme]
  by_cases hcur : cur < bytes.length
  · obtain ⟨b, hread, hb⟩ := readAt_byteAt hcur
    rw [if_pos hcur, if_pos hcur, hread, ok_bind, hb]
    rfl
  · rw [if_neg hcur, if_neg hcur]

/-! ### The layout of a unit -/

namespace SmsPdu

variable (pdu : SmsPdu)

def mtiByte : ℕ := byteAt pdu.bytes pdu.tpdu

/-- The address is behind the type, and the reference of an SMS-SUBMIT. -/
def addressPlace : ℕ := pdu.tpdu + if pduType pdu.mtiByte = .submit then 2 else 1

/-- What the address says of its length. -/
def addressLength : ℕ := byteAt pdu.bytes pdu.addressPlace

/-- What the readers of a text go over: the digits of a sender are left out. -/
def readSize : ℕ :=
  if pdu.addressLength = 0 then 1
  else if pduType pdu.mtiByte = .submit then 2 + (pdu.addressLength + 1) / 2 else 2

/-- What the readers of a header go over: an empty address has a type, too. -/
def skipSize : ℕ := 2 + (pdu.addressLength + 1) / 2

/-- The validity period of an SMS-SUBMIT, or the timestamp of an SMS-DELIVER. -/
def periodSize : ℕ :=
  if pduType pdu.mtiByte = .submit then
    if pdu.mtiByte / 8 % 4 = 0 then 0 else if pdu.mtiByte / 8 % 4 = 1 then 1 else 7
  else 7

/-- The user data is behind the address, the protocol identifier, the coding scheme and the
period. -/
def userData (size : ℕ) : ℕ := pdu.addressPlace + size + 2 + pdu.periodSize

def coding : SmsCodingScheme :=
  codingScheme (byteAt pdu.bytes (pdu.addressPlace + pdu.readSize + 1))

/-- The header with its length. -/
def headerSize : ℕ :=
  if hasHeader pdu.mtiByte then byteAt pdu.bytes (pdu.userData pdu.readSize + 1) + 1 else 0

/-- What the header takes of the length of the text, which counts septets or bytes. -/
def headerUnits : ℕ :=
  if pdu.coding = .gsm7 then (8 * pdu.headerSize + 6) / 7 else pdu.headerSize

/-- The length of the text, with its header. -/
def textLength : ℕ := byteAt pdu.bytes (pdu.userData pdu.readSize)

/-- The address is inside the unit and has room. -/
def AddressFits : Prop :=
  match pduType pdu.mtiByte with
  | .submit => pdu.addressLength ≤ 20
  | .deliver => ScAddressFits pdu.bytes pdu.addressPlace
  | _ => False

/-- A text is found in the unit. -/
structure HasText : Prop where
  address : pdu.AddressFits
  coding : pdu.coding ≠ .unknown
  header : pdu.userData pdu.readSize + 1 + pdu.headerSize ≤ pdu.bytes.length
  length : pdu.headerUnits ≤ pdu.textLength

/-- The text ends inside the unit. -/
def TextEnds : Prop :=
  match pdu.coding with
  | .gsm7 => pdu.textLength = pdu.headerUnits ∨
      7 * pdu.textLength ≤ 8 * (pdu.bytes.length - (pdu.userData pdu.readSize + 1))
  | .ucs2 => pdu.headerSize + 2 * ((pdu.textLength - pdu.headerSize) / 2) ≤
      pdu.bytes.length - (pdu.userData pdu.readSize + 1)
  | .unknown => True

theorem smsGetByte_mtiByte : smsGetByte pdu.bytes pdu.tpdu =
    .ok (if pdu.tpdu < pdu.bytes.length then some (pdu.mtiByte, pdu.tpdu + 1) else none) :=
  smsGetByte_eq _

theorem tpdu_lt_userData (size : ℕ) : pdu.tpdu < pdu.userData size := by
  rw [userData, addressPlace]
  split_ifs <;> omega

end SmsPdu

theorem smsSkipValidityPeriod_eq (hsubmit : pduType pdu.mtiByte = .submit) (cur : ℕ) :
    smsSkipValidityPeriod pdu.bytes cur pdu.mtiByte =
      if cur + pdu.periodSize ≤ pdu.bytes.length then some (cur + pdu.periodSize) else none := by
  simp only [smsSkipValidityPeriod, SmsPdu.periodSize, if_pos hsubmit, ← not_le, ite_not]
  generalize pdu.mtiByte / 8 % 4 = format
  by_cases hnone : format = 0
  · simp [hnone]
  by_cases hrelative : format = 1
  · simp [hrelative]
  · simp [hnone, hrelative]

theorem userDataPlace_eq (pdu : SmsPdu) : userDataPlace pdu =
    .ok (if (hasHeader pdu.mtiByte = true ∧ (pduType pdu.mtiByte = .deliver ∨
        pduType pdu.mtiByte = .submit)) ∧ pdu.userData pdu.skipSize ≤ pdu.bytes.length then
      some (pdu.userData pdu.skipSize) else none) := by
  have htpdu := pdu.tpdu_lt_userData pdu.skipSize
  simp only [userDataPlace, pdu.smsGetByte_mtiByte, ok_bind]
  by_cases hcur : pdu.tpdu < pdu.bytes.length
  · simp only [if_pos hcur]
    cases hheader : hasHeader pdu.mtiByte with
    | false => simp
    | true =>
      cases htype : pduType pdu.mtiByte with
      | invalid => simp
      | statusReport => simp
      | deliver =>
        have hplace : pdu.userData pdu.skipSize =
            pdu.tpdu + 1 + 2 + (byteAt pdu.bytes (pdu.tpdu + 1) + 1) / 2 + 2 + 7 := by
          simp only [SmsPdu.userData, SmsPdu.skipSize, SmsPdu.addressLength, SmsPdu.addressPlace,
            SmsPdu.periodSize, htype, reduceCtorEq, if_false]
          omega
        simp only [smsSkipAddress_eq, smsSkipTimestamp, hplace, ok_bind]
        generalize pdu.tpdu + 1 + 2 + (byteAt pdu.bytes (pdu.tpdu + 1) + 1) / 2 = data
        by_cases hdata : data ≤ pdu.bytes.length
        · simp only [if_pos hdata, ← not_le, ite_not]
          simp
        · simp [hdata, show ¬ data + 2 + 7 ≤ pdu.bytes.length by omega]
      | submit =>
        have hplace : pdu.userData pdu.skipSize = pdu.tpdu + 1 + 1 + 2 +
            (byteAt pdu.bytes (pdu.tpdu + 1 + 1) + 1) / 2 + 2 + pdu.periodSize := by
          simp only [SmsPdu.userData, SmsPdu.skipSize, SmsPdu.addressLength, SmsPdu.addressPlace,
            htype, if_true, Nat.add_assoc, Nat.reduceAdd]
          omega
        simp only [smsSkipAddress_eq, smsSkipValidityPeriod_eq htype, hplace, ok_bind]
        generalize pdu.tpdu + 1 + 1 + 2 + (byteAt pdu.bytes (pdu.tpdu + 1 + 1) + 1) / 2 = data
        by_cases hdata : data ≤ pdu.bytes.length
        · simp [hdata]
        · simp [hdata, show ¬ data + 2 + pdu.periodSize ≤ pdu.bytes.length by omega]
  · rw [if_neg hcur, if_neg (by omega)]
    rfl

/-- A reader finds something exactly if `p`, and leaves the place behind it. -/
theorem of_map_snd {α : Type} {r : Option (α × ℕ)} {p : Prop} [Decidable p]
    (h : r.map Prod.snd = if p then some n else none) :
    r = none ∧ ¬ p ∨ ∃ a, r = some (a, n) ∧ p := by
  obtain _ | ⟨a, m⟩ := r
  · exact .inl ⟨rfl, fun hp => by simp [hp] at h⟩
  · obtain ⟨hp, rfl⟩ : p ∧ n = m := by simpa [eq_comm] using h
    exact .inr ⟨a, rfl, hp⟩

theorem textCall_spec (pdu : SmsPdu) : ∃ r, textCall pdu = .ok r ∧ ∀ call, r = some call ↔
    pdu.AddressFits ∧ pdu.coding ≠ .unknown ∧ pdu.userData pdu.readSize ≤ pdu.bytes.length ∧
      call = ⟨pdu.userData pdu.readSize, hasHeader pdu.mtiByte, pdu.coding,
        pduType pdu.mtiByte = .submit⟩ := by
  have htpdu := pdu.tpdu_lt_userData pdu.readSize
  simp only [textCall, pdu.smsGetByte_mtiByte, ok_bind]
  by_cases hcur : pdu.tpdu < pdu.bytes.length
  · simp only [if_pos hcur]
    cases htype : pduType pdu.mtiByte with
    | invalid => exact ⟨none, rfl, by simp [SmsPdu.AddressFits, htype]⟩
    | statusReport => exact ⟨none, rfl, by simp [SmsPdu.AddressFits, htype]⟩
    | deliver =>
      have hplace : pdu.addressPlace = pdu.tpdu + 1 := by simp [SmsPdu.addressPlace, htype]
      have hsize : pdu.readSize = if pdu.addressLength = 0 then 1 else 2 := by
        simp [SmsPdu.readSize, htype]
      have hperiod : pdu.periodSize = 7 := by simp [SmsPdu.periodSize, htype]
      obtain ⟨r, hr, hsnd⟩ := smsGetScAddress_place pdu.bytes pdu.addressPlace
      rw [← SmsPdu.addressLength, ← hsize] at hsnd
      simp only [← hplace, hr, ok_bind, SmsPdu.AddressFits, htype, SmsPdu.userData, hperiod]
      obtain ⟨rfl, hfits⟩ | ⟨address, rfl, hfits⟩ := of_map_snd hsnd
      · exact ⟨none, rfl, fun call => by simp [hfits]⟩
      simp only [smsGetCodingScheme_eq, ok_bind]
      by_cases hend : pdu.addressPlace + pdu.readSize + 1 < pdu.bytes.length
      · simp only [if_pos hend]
        change ∃ r, (if pdu.coding = .unknown then _ else _) = _ ∧ _
        by_cases hcoding : pdu.coding = .unknown
        · exact ⟨none, if_pos hcoding, by simp [hcoding]⟩
        rw [if_neg hcoding]
        obtain ⟨r, hr, hsnd⟩ :=
          smsGetTimestamp_place pdu.bytes (pdu.addressPlace + pdu.readSize + 1 + 1)
        simp only [hr, ok_bind]
        obtain ⟨rfl, hts⟩ | ⟨ts, rfl, hts⟩ := of_map_snd hsnd
        · exact ⟨none, rfl, fun call => by simp; omega⟩
        refine ⟨_, rfl, fun call => ?_⟩
        simp only [hfits, hcoding, hts, ne_eq, not_false_eq_true, true_and, some.injEq]
        exact eq_comm
      · simp only [if_neg hend]
        exact ⟨none, rfl, fun call => by simp; omega⟩
    | submit =>
      have hplace : pdu.addressPlace = pdu.tpdu + 1 + 1 := by simp [SmsPdu.addressPlace, htype]
      have hsize : pdu.readSize =
          if pdu.addressLength = 0 then 1 else 2 + (pdu.addressLength + 1) / 2 := by
        simp [SmsPdu.readSize, htype]
      obtain ⟨r, hr, hsnd⟩ := smsGetAddress_place pdu.bytes pdu.addressPlace
      rw [← SmsPdu.addressLength, ← hsize] at hsnd
      simp only [← hplace, hr, ok_bind, SmsPdu.AddressFits, htype, SmsPdu.userData]
      obtain ⟨rfl, hfits⟩ | ⟨address, rfl, hfits⟩ := of_map_snd hsnd
      · exact ⟨none, rfl, fun call => by simp; omega⟩
      · simp only [smsGetCodingScheme_eq, ok_bind]
        by_cases hend : pdu.addressPlace + pdu.readSize + 1 < pdu.bytes.length
        · simp only [if_pos hend]
          change ∃ r, (if pdu.coding = .unknown then _ else _) = _ ∧ _
          by_cases hcoding : pdu.coding = .unknown
          · exact ⟨none, if_pos hcoding, by simp [hcoding]⟩
          rw [if_neg hcoding, smsSkipValidityPeriod_eq htype]
          by_cases hperiod : pdu.addressPlace + pdu.readSize + 2 + pdu.periodSize ≤ pdu.bytes.length
          · rw [if_pos hperiod]
            refine ⟨_, rfl, fun call => ?_⟩
            simp only [hfits.2, hcoding, hperiod, ne_eq, not_false_eq_true, true_and, some.injEq]
            exact eq_comm
          · rw [if_neg hperiod]
            exact ⟨none, rfl, fun call => by simp [hperiod]⟩
        · simp only [if_neg hend]
          exact ⟨none, rfl, fun call => by simp; omega⟩
  · rw [if_neg hcur]
    exact ⟨none, rfl, fun call => by simp; omega⟩

theorem smsTextPlace_eq (bytes : Bytes) (cur : ℕ) (hasUdh : Bool) (coding : SmsCodingScheme)
    {size units : ℕ} (hsize : size = if hasUdh then byteAt bytes (cur + 1) + 1 else 0)
    (hunits : units = if coding = .gsm7 then (8 * size + 6) / 7 else size) :
    smsTextPlace bytes cur hasUdh coding =
      .ok (if cur + 1 + size ≤ bytes.length ∧ units ≤ byteAt bytes cur then
        some (cur + 1 + size, if coding = .gsm7 then 7 * units - 8 * size else 0,
          byteAt bytes cur - units) else none) := by
  rw [smsTextPlace]
  by_cases hcur : cur < bytes.length
  · obtain ⟨len, hread, hlen⟩ := readAt_byteAt hcur
    simp only [if_pos hcur, hread, ok_bind, hlen]
    cases hasUdh with
    | false =>
      obtain rfl : size = 0 := hsize
      have hunits : units = 0 := by rw [hunits]; simp
      simp [hunits, Nat.succ_le_of_lt hcur]
    | true =>
      by_cases hheader : cur + 1 < bytes.length
      · obtain ⟨hl, hhread, hhl⟩ := readAt_byteAt hheader
        simp only [if_pos hheader, hhread, ok_bind, if_true, hhl]
        rw [if_pos rfl] at hsize
        by_cases hgsm7 : coding = .gsm7
        · simp only [if_pos hgsm7] at hunits ⊢
          split_ifs <;> simp <;> omega
        · simp only [if_neg hgsm7] at hunits ⊢
          split_ifs <;> simp <;> omega
      · have : ¬ (cur + 1 + size ≤ bytes.length ∧ units ≤ byteAt bytes cur) := by
          rw [if_pos rfl] at hsize
          omega
        simp [if_neg hheader, if_neg this]
  · rw [if_neg hcur, if_neg (by omega)]

/-! ### Decoding -/

theorem septetAt_room {src : Bytes} (hshift : shift < 8)
    (h : (septetAt src shift).IsOk) : shift + 7 ≤ 8 * src.length := by
  have hread : ∀ {i : ℕ} {b : UInt8}, readAt src i = .ok b → i < src.length := by
    intro i b hb
    by_contra hi
    rw [readAt, getElem?_eq_none (by omega)] at hb
    cases hb
  obtain ⟨b, hb, hrest⟩ := isOk_bind_iff.mp h
  have hfirst := hread hb
  by_cases hsplit : 1 < shift
  · rw [if_pos hsplit] at hrest
    obtain ⟨b', hb', -⟩ := isOk_bind_iff.mp hrest
    have hsecond := hread hb'
    omega
  · omega

theorem utf8FromGsm7Loop_room (n : ℕ) : ∀ {src : Bytes} {shift : ℕ} {escaped : Bool}, shift < 8 →
      (utf8FromGsm7Loop n src shift escaped).IsOk → n = 0 ∨ shift + 7 * n ≤ 8 * src.length := by
  induction n with
  | zero => exact fun _ _ => .inl rfl
  | succ n ih =>
    intro src shift escaped hshift h
    right
    obtain ⟨c, hc, hrest⟩ := isOk_bind_iff.mp h
    have hroom := septetAt_room hshift ⟨c, hc⟩
    generalize hp : (if 8 ≤ shift + 7 then (src.drop 1, shift + 7 - 8) else (src, shift + 7)) = p
      at hrest
    -- whatever the septet is, the rest is decoded
    have hnext : ∃ escaped, (utf8FromGsm7Loop n p.1 p.2 escaped).IsOk := by
      split_ifs at hrest with hescaped hescape
      · obtain ⟨v, -, hrest⟩ := isOk_bind_iff.mp hrest
        obtain ⟨text, htext, -⟩ := isOk_bind_iff.mp hrest
        exact ⟨true, text, htext⟩
      · exact ⟨true, hrest⟩
      · obtain ⟨v, -, hrest⟩ := isOk_bind_iff.mp hrest
        obtain ⟨text, htext, -⟩ := isOk_bind_iff.mp hrest
        exact ⟨false, text, htext⟩
    obtain ⟨escaped', hok⟩ := hnext
    by_cases hfull : 8 ≤ shift + 7
    · rw [if_pos hfull] at hp
      subst hp
      have := ih (by simp only; omega) hok
      simp only [length_drop] at this
      omega
    · rw [if_neg hfull] at hp
      subst hp
      have := ih (by simp only; omega) hok
      simp only at this
      omega

theorem utf8FromGsm7_isOk_iff {src : Bytes} (hpad : pad < 8) :
    (utf8FromGsm7 src pad n).IsOk ↔ n = 0 ∨ pad + 7 * n ≤ 8 * src.length := by
  constructor
  · intro h
    rw [utf8FromGsm7, Nat.mod_eq_of_lt hpad, Nat.div_eq_of_lt hpad] at h
    exact utf8FromGsm7Loop_room n hpad h
  · rintro (rfl | hroom)
    · exact ⟨[], rfl⟩
    · exact ⟨_, utf8FromGsm7_spec hpad hroom⟩

theorem ucs2ToUtf8_isOk_iff (n : ℕ) :
    ∀ {src : Bytes}, (ucs2ToUtf8 src n).IsOk ↔ 2 * n ≤ src.length := by
  induction n with
  | zero => exact fun {src} => ⟨fun _ => by omega, fun _ => ⟨[], rfl⟩⟩
  | succ n ih =>
    intro src
    rw [ucs2ToUtf8]
    match src with
    | [] => simp [readAt]
    | [b] =>
      simp only [readAt, getElem?_cons_zero, getElem?_cons_succ, getElem?_nil, ok_bind, error_bind,
        not_isOk_error, length_singleton, false_iff]
      omega
    | b :: b' :: src =>
      simp only [readAt, getElem?_cons_zero, getElem?_cons_succ, ok_bind, drop_succ_cons, drop_zero,
        isOk_bind_iff, pure_eq_ok, isOk_ok, and_true, length_cons]
      rw [show (∃ text, ucs2ToUtf8 src n = .ok text) ↔ 2 * n ≤ src.length from ih]
      omega

/-- The text that is found ends inside the unit, and there is a rope for it. -/
def TextInside (pdu : SmsPdu) : Prop :=
  pdu.HasText → pduType pdu.mtiByte = .submit ∧ pdu.TextEnds

theorem isOk_write_iff {text : Checked Bytes} {initialised : Bool} : Checked.IsOk (do
        let text ← text
        if initialised then return some text else .error .uninitialized) ↔
      initialised = true ∧ text.IsOk := by
  rw [isOk_bind_iff]
  cases initialised with
  | false => simp
  | true => simp [Checked.IsOk]

theorem smspduGetTextMessage_isOk_iff (pdu : SmsPdu) :
    (smspduGetTextMessage pdu).IsOk ↔ TextInside pdu := by
  obtain ⟨r, hr, hcall⟩ := textCall_spec pdu
  rw [smspduGetTextMessage, hr, ok_bind]
  obtain _ | call := r
  · refine iff_of_true ⟨_, rfl⟩ fun h => ?_
    have hle := h.header
    exact absurd ((hcall _).mpr ⟨h.address, h.coding, by omega, rfl⟩) (by simp)
  obtain ⟨haddress, hcoding, -, rfl⟩ := (hcall call).mp rfl
  have hplace := smsTextPlace_eq pdu.bytes (pdu.userData pdu.readSize) (hasHeader pdu.mtiByte)
    pdu.coding (Eq.refl pdu.headerSize) (Eq.refl pdu.headerUnits)
  rw [← SmsPdu.textLength] at hplace
  dsimp only
  rw [smsGetTextUtf8, hplace, ok_bind]
  by_cases hfound : pdu.userData pdu.readSize + 1 + pdu.headerSize ≤ pdu.bytes.length ∧
      pdu.headerUnits ≤ pdu.textLength
  swap
  · rw [if_neg hfound]
    exact iff_of_true ⟨_, rfl⟩ fun h => absurd ⟨h.header, h.length⟩ hfound
  have hunits : pdu.headerUnits =
    if pdu.coding = .gsm7 then (8 * pdu.headerSize + 6) / 7 else pdu.headerSize := rfl
  rw [if_pos hfound, TextInside,
    forall_prop_of_true (⟨haddress, hcoding, hfound.1, hfound.2⟩ : pdu.HasText), SmsPdu.TextEnds]
  cases hc : pdu.coding with
  | gsm7 =>
    rw [hc, if_pos rfl] at hunits
    simp only [if_true]
    rw [isOk_write_iff, decide_eq_true_iff, utf8FromGsm7_isOk_iff (by omega), length_drop]
    refine and_congr_right' ?_
    omega
  | ucs2 =>
    rw [hc, if_neg (by simp)] at hunits
    simp only
    rw [isOk_write_iff, decide_eq_true_iff, ucs2ToUtf8_isOk_iff, length_drop]
    refine and_congr_right' ?_
    omega
  | unknown => exact absurd hc hcoding

/-! ### The walk over the header -/

/-- The element at `data` is looked at, and is not the one that is searched for. -/
structure Passes (bytes : Bytes) (data : ℕ) (len : ℤ) (hlen : UInt8) : Prop where
  two_le : 2 ≤ len
  inside : data + 2 ≤ bytes.length
  hlen_eq : bytes[data + 1]? = some hlen
  other : ¬ (bytes[data]? = some 0 ∧ hlen = 3 ∧ data + 5 ≤ bytes.length)

/-- The walk from `data` arrives at an element of length zero. -/
inductive Stalls (bytes : Bytes) : ℕ → ℤ → Prop
  | here {data : ℕ} {len : ℤ} (h : Passes bytes data len 0) : Stalls bytes data len
  | later {data : ℕ} {len : ℤ} {hlen : UInt8} (h : Passes bytes data len hlen)
    (hrest : Stalls bytes (data + hlen.toNat) (len - (hlen.toNat - 2))) : Stalls bytes data len

theorem userDataRefLoop_succ (bytes : Bytes) (n data : ℕ) (len : ℤ) :
    (∃ r, userDataRefLoop bytes (n + 1) data len = .ok r ∧ (∀ d ∈ r, d + 3 ≤ bytes.length) ∧
        ∀ hlen, ¬ Passes bytes data len hlen) ∨
      ∃ hlen, Passes bytes data len hlen ∧ userDataRefLoop bytes (n + 1) data len =
          if len - (hlen.toNat - 2) < 2 ^ 31 then
            userDataRefLoop bytes n (data + hlen.toNat) (len - (hlen.toNat - 2))
          else .error .overflow := by
  rw [userDataRefLoop]
  by_cases hround : 2 ≤ len ∧ data + 2 ≤ bytes.length
  · obtain ⟨htype, htype_eq, htype_read⟩ := readAt_of_lt (show data < bytes.length by omega)
    obtain ⟨hlen, hlen_eq, hlen_read⟩ := readAt_of_lt (show data + 1 < bytes.length by omega)
    rw [if_pos hround, htype_read, hlen_read]
    by_cases hfound : htype = 0 ∧ hlen = 3 ∧ data + 5 ≤ bytes.length
    · refine .inl ⟨_, if_pos hfound, ?_, fun hlen' hpasses => hpasses.other ⟨?_, ?_, hfound.2.2⟩⟩
      · rintro d hd
        obtain rfl := some.inj hd
        exact hfound.2.2
      · rw [htype_eq, hfound.1]
      · exact some.inj (hpasses.hlen_eq.symm.trans (hlen_eq.trans (by rw [hfound.2.1])))
    · refine .inr ⟨hlen, ⟨hround.1, hround.2, hlen_eq, fun h => hfound ⟨?_, h.2⟩⟩, if_neg hfound⟩
      exact some.inj (htype_eq.symm.trans h.1)
  · exact .inl ⟨none, if_neg hround, by simp, fun hlen h => hround ⟨h.two_le, h.inside⟩⟩

theorem Passes.not_isOk (n : ℕ) :
    ∀ {len : ℤ}, Passes bytes data len 0 → ¬ (userDataRefLoop bytes n data len).IsOk := by
  induction n with
  | zero => exact fun _ => not_isOk_error _
  | succ n ih =>
    intro len h
    obtain ⟨r, -, -, hends⟩ | ⟨hlen, hpasses, hstep⟩ := userDataRefLoop_succ bytes n data len
    · exact absurd h (hends 0)
    obtain rfl : 0 = hlen := some.inj (h.hlen_eq.symm.trans hpasses.hlen_eq)
    rw [hstep]
    split_ifs with hsmall
    · have htwo := h.two_le
      exact ih ⟨by simp; omega, h.inside, h.hlen_eq, h.other⟩
    · exact not_isOk_error _

theorem Stalls.not_isOk {len : ℤ} (h : Stalls bytes data len) :
    ∀ n, ¬ (userDataRefLoop bytes n data len).IsOk := by
  induction h with
  | here h => exact fun n => h.not_isOk n
  | @later data len hlen h hrest ih =>
    intro n
    cases n with
    | zero => exact not_isOk_error _
    | succ n =>
      obtain ⟨r, -, -, hends⟩ | ⟨hlen', hpasses, hstep⟩ := userDataRefLoop_succ bytes n data len
      · exact absurd h (hends hlen)
      obtain rfl : hlen = hlen' := some.inj (h.hlen_eq.symm.trans hpasses.hlen_eq)
      rw [hstep]
      split_ifs
      · exact ih n
      · exact not_isOk_error _

/-- A walk that does not stall goes on towards the end. The length that is left grows by no more
than the place. -/
theorem userDataRefLoop_isOk (hbytes : bytes.length < 2 ^ 30) (n : ℕ) :
    ∀ {data : ℕ} {len : ℤ}, ¬ Stalls bytes data len → len ≤ 255 + data → bytes.length ≤ data + n →
      ∃ r, userDataRefLoop bytes (n + 1) data len = .ok r ∧ ∀ d ∈ r, d + 3 ≤ bytes.length := by
  induction n with
  | zero =>
    intro data len _ _ hn
    obtain ⟨r, hr, hinside, -⟩ | ⟨hlen, hpasses, -⟩ := userDataRefLoop_succ bytes 0 data len
    · exact ⟨r, hr, hinside⟩
    · have := hpasses.inside
      omega
  | succ n ih =>
    intro data len hstalls hlen hn
    obtain ⟨r, hr, hinside, -⟩ | ⟨hl, hpasses, hstep⟩ := userDataRefLoop_succ bytes (n + 1) data len
    · exact ⟨r, hr, hinside⟩
    have hpos : hl.toNat ≠ 0 := by
      intro hzero
      obtain rfl : hl = 0 := UInt8.toNat_inj.mp hzero
      exact hstalls (.here hpasses)
    have hinside := hpasses.inside
    rw [hstep, if_pos (by omega)]
    exact ih (fun hrest => hstalls (.later hpasses hrest)) (by push_cast; omega) (by omega)

/-- The walk over the header of a unit stalls. -/
def HeaderStalls (pdu : SmsPdu) : Prop :=
  (hasHeader pdu.mtiByte = true ∧
      (pduType pdu.mtiByte = .deliver ∨ pduType pdu.mtiByte = .submit)) ∧
    pdu.userData pdu.skipSize + 1 < pdu.bytes.length ∧
    Stalls pdu.bytes (pdu.userData pdu.skipSize + 2)
      (byteAt pdu.bytes (pdu.userData pdu.skipSize + 1))

/-- The walk starts behind the length of the header. -/
theorem smspduGetUserDataRef_eq (n : ℕ) (pdu : SmsPdu) : smspduGetUserDataRef n pdu =
    if (hasHeader pdu.mtiByte = true ∧ (pduType pdu.mtiByte = .deliver ∨
        pduType pdu.mtiByte = .submit)) ∧ pdu.userData pdu.skipSize + 1 < pdu.bytes.length then
      userDataRefLoop pdu.bytes n (pdu.userData pdu.skipSize + 2)
        (byteAt pdu.bytes (pdu.userData pdu.skipSize + 1))
    else .ok none := by
  rw [smspduGetUserDataRef, userDataPlace_eq, ok_bind]
  by_cases hend : pdu.userData pdu.skipSize + 1 < pdu.bytes.length
  · obtain ⟨len, hread, hlen⟩ := readAt_byteAt hend
    simp only [hend, (Nat.le_succ _).trans hend.le, and_true]
    split_ifs with hheader
    · simp only [if_neg (not_le.mpr hend), hread, ok_bind, hlen]
    · rfl
  · simp only [hend, and_false, if_false]
    split_ifs
    · exact if_pos (not_lt.mp hend)
    · rfl

/-- The reference is found or is not there, unless the walk stalls. A round for each byte and one
more are enough. -/
theorem smspduGetUserDataRef_spec (hbytes : pdu.bytes.length < 2 ^ 30) (h : ¬ HeaderStalls pdu) :
    ∃ r, smspduGetUserDataRef (pdu.bytes.length + 1) pdu = .ok r ∧
      ∀ d ∈ r, d + 3 ≤ pdu.bytes.length := by
  rw [smspduGetUserDataRef_eq]
  split_ifs with hplace
  · have hlen : byteAt pdu.bytes (pdu.userData pdu.skipSize + 1) < 256 := UInt8.toNat_lt _
    exact userDataRefLoop_isOk hbytes _ (fun hstalls => h ⟨hplace.1, hplace.2, hstalls⟩)
      (by push_cast; omega) (by omega)
  · exact ⟨none, rfl, by simp⟩

theorem HeaderStalls.not_isOk (h : HeaderStalls pdu) (n : ℕ) :
    ¬ (smspduGetUserDataRef n pdu).IsOk := by
  rw [smspduGetUserDataRef_eq, if_pos ⟨h.1, h.2.1⟩]
  exact h.2.2.not_isOk n

/-! ### All readers -/

/-- Every reader returns. -/
structure ReadersReturn (pdu : SmsPdu) : Prop where
  type : (smspduGetType pdu).IsOk
  ref : ∃ n, (smspduGetRef n pdu).IsOk
  maxIndex : ∃ n, (smspduGetMaxIndex n pdu).IsOk
  curIndex : ∃ n, (smspduGetCurIndex n pdu).IsOk
  receiverAddress : (smspduGetReceiverAddress pdu).IsOk
  textMessage : (smspduGetTextMessage pdu).IsOk

theorem smspduGetType_isOk (pdu : SmsPdu) : (smspduGetType pdu).IsOk := by
  rw [smspduGetType, smsGetByte_eq, ok_bind]
  split <;> exact ⟨_, rfl⟩

theorem smspduGetReceiverAddress_isOk (pdu : SmsPdu) : (smspduGetReceiverAddress pdu).IsOk := by
  rw [smspduGetReceiverAddress, smsGetByte_eq, ok_bind]
  split
  · exact ⟨_, rfl⟩
  next mtiByte data _ =>
    cases pduType mtiByte with
    | submit =>
      obtain ⟨r, hr, -⟩ := smsGetAddress_place pdu.bytes (data + 1)
      exact ⟨_, by simp only [hr]; rfl⟩
    | _ => exact ⟨_, rfl⟩

section

variable {r : Option ℕ} (hr : smspduGetUserDataRef n pdu = .ok r)
    (hinside : ∀ d ∈ r, d + 3 ≤ pdu.bytes.length)

include hr hinside

theorem smspduGetRef_isOk : (smspduGetRef n pdu).IsOk := by
  rw [smspduGetRef, hr, ok_bind]
  obtain _ | d := r
  · simp only [smsGetByte_eq, ok_bind]
    split
    · exact ⟨_, rfl⟩
    split_ifs with hsubmit
    · exact (readAt_isOk hsubmit.2).bind fun _ _ => ⟨_, rfl⟩
    · exact ⟨_, rfl⟩
  · have hd := hinside d rfl
    exact (readAt_isOk (by omega)).bind fun _ _ => ⟨_, rfl⟩

theorem smspduGetMaxIndex_isOk : (smspduGetMaxIndex n pdu).IsOk := by
  rw [smspduGetMaxIndex, hr, ok_bind]
  obtain _ | d := r
  · exact ⟨_, rfl⟩
  · have hd := hinside d rfl
    exact (readAt_isOk (by omega)).bind fun _ _ => ⟨_, rfl⟩

theorem smspduGetCurIndex_isOk : (smspduGetCurIndex n pdu).IsOk := by
  rw [smspduGetCurIndex, hr, ok_bind]
  obtain _ | d := r
  · exact ⟨_, rfl⟩
  · have hd := hinside d rfl
    exact (readAt_isOk (by omega)).bind fun _ _ => ⟨_, rfl⟩

end

/-- All readers return if and only if the walk over the header does not stall and the text is
inside the unit. -/
theorem readersReturn_iff (hbytes : pdu.bytes.length < 2 ^ 30) :
    ReadersReturn pdu ↔ ¬ HeaderStalls pdu ∧ TextInside pdu := by
  constructor
  · intro h
    refine ⟨fun hstalls => ?_, (smspduGetTextMessage_isOk_iff pdu).mp h.textMessage⟩
    obtain ⟨n, hn⟩ := h.maxIndex
    obtain ⟨r, hr, -⟩ := isOk_bind_iff.mp hn
    exact hstalls.not_isOk n ⟨r, hr⟩
  · rintro ⟨hstalls, htext⟩
    obtain ⟨r, hr, hinside⟩ := smspduGetUserDataRef_spec hbytes hstalls
    exact {
      type := smspduGetType_isOk pdu
      ref := ⟨_, smspduGetRef_isOk hr hinside⟩
      maxIndex := ⟨_, smspduGetMaxIndex_isOk hr hinside⟩
      curIndex := ⟨_, smspduGetCurIndex_isOk hr hinside⟩
      receiverAddress := smspduGetReceiverAddress_isOk pdu
      textMessage := (smspduGetTextMessage_isOk_iff pdu).mpr htext }

/-- Any hexadecimal string is read without a fault. On the unit that is made of it, all readers
end and read nothing outside the unit if and only if the walk over the header arrives at no
element of length zero and the text is inside the unit and has a rope. -/
theorem readers_return_iff (hex : Bytes) (hhex : hex.length < 2 ^ 31) :
    ∃ r, smspduCreateFromHex hex = .ok r ∧
      ∀ pdu ∈ r, ReadersReturn pdu ↔ ¬ HeaderStalls pdu ∧ TextInside pdu := by
  rw [smspduCreateFromHex]
  cases hbytes : gsmHexToBytes hex with
  | none => exact ⟨none, rfl, by simp⟩
  | some bytes =>
    have hlength := length_gsmHexToBytes hbytes
    obtain ⟨r, hr⟩ : (smsSkipScAddress bytes 0).IsOk := by
      rw [smsSkipScAddress]
      split_ifs with hcur
      · refine (readAt_isOk hcur).bind fun len _ => ?_
        split_ifs <;> exact ⟨_, rfl⟩
      · exact ⟨_, rfl⟩
    refine ⟨_, by simp only [hr]; rfl, fun pdu hpdu => ?_⟩
    obtain ⟨tpdu, -, rfl⟩ := Option.mem_map.mp hpdu
    exact readersReturn_iff (by simp only; omega)

/-- An SMS-SUBMIT with the text `hi`. -/
theorem readers_return_iff_hi :
    ∃ r, smspduCreateFromHex (gsmHexFromBytes [0, 1, 0, 0, 0, 0, 2, 0xe8, 0x34]) = .ok r ∧
      ∀ pdu ∈ r, ReadersReturn pdu ↔ ¬ HeaderStalls pdu ∧ TextInside pdu :=
  readers_return_iff _ (by decide)

/-- Three units: one whose text is behind its end, an SMS-DELIVER whose text has no rope, and one
whose header has an element of length zero. -/
theorem readers_do_not_return : smspduCreateFromHex (gsmHexFromBytes [0, 1, 0, 0, 0, 0, 5]) =
        .ok (some ⟨[0, 1, 0, 0, 0, 0, 5], 1⟩) ∧
      smspduGetTextMessage ⟨[0, 1, 0, 0, 0, 0, 5], 1⟩ = .error .outOfBounds ∧
      smspduCreateFromHex (gsmHexFromBytes [0, 0, 0, 0, 0, 1, 1, 1, 1, 1, 1, 1, 0]) =
        .ok (some ⟨[0, 0, 0, 0, 0, 1, 1, 1, 1, 1, 1, 1, 0], 1⟩) ∧
      smspduGetTextMessage ⟨[0, 0, 0, 0, 0, 1, 1, 1, 1, 1, 1, 1, 0], 1⟩ = .error .uninitialized ∧
      smspduCreateFromHex (gsmHexFromBytes [0, 0x41, 0, 1, 0x81, 0xf1, 0, 0, 7, 6, 5, 0]) =
        .ok (some ⟨[0, 0x41, 0, 1, 0x81, 0xf1, 0, 0, 7, 6, 5, 0], 1⟩) ∧
      ∀ n, ¬ (smspduGetMaxIndex n ⟨[0, 0x41, 0, 1, 0x81, 0xf1, 0, 0, 7, 6, 5, 0], 1⟩).IsOk := by
  refine ⟨by decide +kernel, by decide +kernel, by decide +kernel, by decide +kernel,
    by decide +kernel, fun n hn => ?_⟩
  obtain ⟨r, hr, -⟩ := isOk_bind_iff.mp hn
  refine HeaderStalls.not_isOk ⟨by decide +kernel, by decide +kernel, .here ?_⟩ n ⟨r, hr⟩
  exact ⟨by decide +kernel, by decide +kernel, by decide +kernel, by decide +kernel⟩

end AndroidEmu.Telephony
