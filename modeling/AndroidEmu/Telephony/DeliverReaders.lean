import AndroidEmu.Telephony.ReaderSafety

/-!
# Reading SMS-DELIVER units

The readers take the address of an SMS-DELIVER, which starts with the number of its semi-octets, for
that of a service centre, which starts with the number of its bytes and ends at a filler; and they
read the timestamp at the address and not behind it.
-/

namespace AndroidEmu.Telephony

open CS Checked List Option UInt8 Except

variable {sender : SmsAddress} {timestamp : SmsTimeStamp} {coding : UInt8}

/-! ### Semi-octets -/

@[simp] theorem length_semiOctets (bs : Bytes) : (semiOctets bs).length = 2 * bs.length := by
  induction bs with
  | nil => rfl
  | cons b bs ih =>
    rw [semiOctets_cons, length_cons, length_cons, length_cons]
    omega

theorem semiOctets_append (as bs : Bytes) :
    semiOctets (as ++ bs) = semiOctets as ++ semiOctets bs :=
  flatMap_append

theorem take_semiOctets (bs : Bytes) (n : ℕ) :
    (semiOctets bs).take (2 * n) = semiOctets (bs.take n) := by
  induction bs generalizing n with
  | nil => simp [semiOctets]
  | cons b bs ih =>
    cases n with
    | zero => rfl
    | succ n =>
      rw [semiOctets_cons, show 2 * (n + 1) = 2 * n + 1 + 1 by omega, take_succ_cons,
        take_succ_cons, ih, take_succ_cons, semiOctets_cons]

theorem toNat_or_filler (b : UInt8) :
    (b ||| 0xf0).toNat % 16 = b.toNat % 16 ∧ (b ||| 0xf0).toNat / 16 = 15 := by
  have hfiller : ∀ n < 256, (n ||| 0xf0) % 16 = n % 16 ∧ (n ||| 0xf0) / 16 = 15 := by decide +kernel
  exact hfiller b.toNat b.toNat_lt

/-! ### The address in a unit -/

/-- The bytes of an address, as they are written behind its length and type. -/
def addressData (a : SmsAddress) : Bytes := (addressBytes a).drop 2

theorem length_addressData (a : SmsAddress) : (addressData a).length = (a.len + 1) / 2 := by
  have hlen := a.len_le
  have hdata := a.length_data
  change (if a.len % 2 = 1 then _ else _ : Bytes).length = _
  split_ifs
  · rw [length_modify, length_take]
    omega
  · rw [length_take]
    omega

theorem modify_append_singleton (xs : Bytes) (b : UInt8) (f : UInt8 → UInt8) :
    (xs ++ [b]).modify xs.length f = xs ++ [f b] := by
  induction xs with
  | nil => rfl
  | cons x xs ih => simp [modify_succ_cons, ih]

theorem semiOctets_addressData (a : SmsAddress) : semiOctets (addressData a) =
      (semiOctets a.data).take a.len ++ if a.len % 2 = 1 then [15] else [] := by
  have hlen := a.len_le
  have hdata := a.length_data
  by_cases hodd : a.len % 2 = 1
  · obtain ⟨k, hk⟩ : ∃ k, a.len = 2 * k + 1 := ⟨a.len / 2, by omega⟩
    obtain ⟨xs, b, ys, hsplit, hxs⟩ : ∃ xs b ys, a.data = xs ++ b :: ys ∧ xs.length = k := by
      have hb : k < a.data.length := by omega
      refine ⟨a.data.take k, a.data[k], a.data.drop (k + 1), ?_, by rw [length_take]; omega⟩
      rw [← drop_eq_getElem_cons hb, take_append_drop]
    have htake : (xs ++ b :: ys).take (k + 1) = xs ++ [b] := by
      rw [take_append, hxs, take_of_length_le (by omega), Nat.add_sub_cancel_left]
      rfl
    have hwritten : addressData a = xs ++ [b ||| 0xf0] := by
      change (if a.len % 2 = 1 then _ else _) = _
      rw [if_pos hodd, hsplit, show (a.len + 1) / 2 = k + 1 by omega, htake, length_append,
        length_singleton, Nat.add_sub_cancel]
      exact modify_append_singleton xs b _
    obtain ⟨hlow, hhigh⟩ := toNat_or_filler b
    rw [hwritten, semiOctets_append, if_pos hodd, hsplit, semiOctets_append, semiOctets_cons,
      semiOctets_cons, hlow, hhigh, hk, ← hxs, take_append, length_semiOctets,
      take_of_length_le (by rw [length_semiOctets]; omega), Nat.add_sub_cancel_left]
    simp [semiOctets]
  · have hwritten : addressData a = a.data.take (a.len / 2) := by
      change (if a.len % 2 = 1 then _ else _) = _
      rw [if_neg hodd, show (a.len + 1) / 2 = a.len / 2 by omega]
    rw [hwritten, ← take_semiOctets, if_neg hodd, append_nil, show 2 * (a.len / 2) = a.len by omega]

/-- What the readers look at: the address, the protocol identifier, the coding scheme and the
timestamp. -/
def addressField (sender : SmsAddress) (coding : UInt8) (timestamp : SmsTimeStamp) : Bytes :=
  addressData sender ++ 0 :: coding :: timestamp.data

theorem length_addressField (sender : SmsAddress) (coding : UInt8) (timestamp : SmsTimeStamp) :
    (addressField sender coding timestamp).length = (sender.len + 1) / 2 + 9 := by
  simp [addressField, length_addressData, timestamp.length_data]

/-- The number of semi-octets is the place of the one that ends the address if and only if they
are odd in number and none of them ends it. -/
theorem addressEnd_addressField_iff :
    addressEnd (addressField sender coding timestamp) = sender.len ↔
      sender.len % 2 = 1 ∧ ∀ v ∈ (semiOctets sender.data).take sender.len, v < 0xe := by
  have hlength : ((semiOctets sender.data).take sender.len).length = sender.len := by
    have hlen := sender.len_le
    have hdata := sender.length_data
    rw [length_take, length_semiOctets]
    omega
  have hnone : ((semiOctets sender.data).take sender.len).findIdx (fun v => decide (0xe ≤ v)) <
      sender.len ↔ ∃ v ∈ (semiOctets sender.data).take sender.len, 0xe ≤ v := by
    nth_rewrite 2 [← hlength]
    rw [findIdx_lt_length]
    simp
  rw [addressEnd, addressField, semiOctets_append, semiOctets_addressData, append_assoc,
    findIdx_append, hlength]
  split_ifs with hends hodd
  · obtain ⟨v, hv, hle⟩ := hnone.mp hends
    exact ⟨fun heq => absurd heq hends.ne, fun h => absurd (h.2 v hv) (by omega)⟩
  · have hall : ∀ v ∈ (semiOctets sender.data).take sender.len, v < 0xe := by
      intro v hv
      by_contra hle
      exact hends (hnone.mpr ⟨v, hv, by omega⟩)
    refine ⟨fun _ => ⟨hodd, hall⟩, fun _ => ?_⟩
    rw [singleton_append, findIdx_cons]
    simp
  · -- the protocol identifier does not end an address
    rw [nil_append, semiOctets_cons, findIdx_cons]
    simp [hodd]

/-! ### What is read -/

/-- The length and the bytes that `sms_get_sc_address` reads. -/
def scAddress (zs : Bytes) : Option (ℕ × Bytes) :=
  if addressEnd zs < 2 * zs.length ∧ addressEnd zs / 2 < 10 then
    some (addressEnd zs, zs.take ((addressEnd zs + 1) / 2))
  else if zs.length ≤ 10 then some (2 * zs.length + (if zs = [] then 0 else 1), zs)
  else none

variable {bytes zs rest text src : Bytes} {cur refNum pduCount pduIndex : ℕ}

theorem smsGetScAddress_spec {toa : UInt8}
    (h : bytes.drop cur = ofNat (zs.length + 1) :: toa :: (zs ++ rest))
    (hlen : zs.length + 1 < 256) :
    smsGetScAddress bytes cur = .ok ((scAddress zs).map fun r => (⟨r.1, toa, r.2⟩, cur + 2)) := by
  have hlength := congrArg List.length h
  simp only [length_drop, length_cons, length_append] at hlength
  have hget : ∀ i, bytes[cur + i]? = (ofNat (zs.length + 1) :: toa :: (zs ++ rest))[i]? := by
    intro i
    rw [← h, getElem?_drop]
  have hbyte : (ofNat (zs.length + 1)).toNat = zs.length + 1 := toNat_ofNat_of_lt hlen
  have hpos : ofNat (zs.length + 1) ≠ 0 := by
    intro hzero
    rw [hzero] at hbyte
    simp at hbyte
  have hloop : scAddressLoop bytes (cur + 2) zs.length 0 0 [] = .ok (scAddress zs) := by
    rw [scAddressLoop_spec zs ⟨rest, ?_⟩ (by norm_num)]
    · simp [scAddress]
    · rw [add_zero, ← drop_drop, h]
      rfl
  rw [smsGetScAddress, if_pos (by omega), readAt, show bytes[cur]? = _ from hget 0]
  simp only [getElem?_cons_zero, ok_bind, if_neg hpos, hbyte,
    if_neg (show ¬ bytes.length < cur + 1 + (zs.length + 1) by omega), readAt, hget 1,
    getElem?_cons_succ, Nat.add_sub_cancel]
  rw [hloop]
  cases scAddress zs <;> rfl

/-- A unit as `smspdu_create_deliver` makes it. -/
def deliverUnit (mtiByte : UInt8) (sender : SmsAddress) (coding : UInt8) (timestamp : SmsTimeStamp)
    (data : Bytes) : SmsPdu :=
  ⟨0 :: mtiByte :: addressBytes sender ++ 0 :: coding :: timestamp.data ++ data, 1⟩

variable {hasUdh useGsm7 : Bool}

section Unit

variable {mtiByte : UInt8} {data : Bytes}

theorem bytes_deliverUnit : (deliverUnit mtiByte sender coding timestamp data).bytes =
      0 :: mtiByte :: ofNat sender.len :: sender.toa ::
        (addressField sender coding timestamp ++ data) := by
  simp [deliverUnit, addressBytes, addressField, addressData]

/-- The bytes that the length of an address makes the readers look at. -/
def addressPart (sender : SmsAddress) (coding : UInt8) (timestamp : SmsTimeStamp) : Bytes :=
  (addressField sender coding timestamp).take (sender.len - 1)

theorem length_addressPart (sender : SmsAddress) (coding : UInt8) (timestamp : SmsTimeStamp) :
    (addressPart sender coding timestamp).length = sender.len - 1 := by
  have hlen := sender.len_le
  rw [addressPart, length_take, length_addressField]
  omega

theorem addressEnd_addressPart : addressEnd (addressPart sender coding timestamp) =
      min (2 * (sender.len - 1)) (addressEnd (addressField sender coding timestamp)) := by
  rw [addressEnd, addressPart, ← take_semiOctets, findIdx_take]
  rfl

theorem smsGetScAddress_unit (hlen : sender.len ≠ 0) :
    smsGetScAddress (deliverUnit mtiByte sender coding timestamp data).bytes 2 =
      .ok ((scAddress (addressPart sender coding timestamp)).map fun r =>
        (⟨r.1, sender.toa, r.2⟩, 4)) := by
  have hle := sender.len_le
  have hbytes : (deliverUnit mtiByte sender coding timestamp data).bytes.drop 2 =
      ofNat ((addressPart sender coding timestamp).length + 1) :: sender.toa ::
        (addressPart sender coding timestamp ++
          ((addressField sender coding timestamp).drop (sender.len - 1) ++ data)) := by
    rw [bytes_deliverUnit, length_addressPart, addressPart, ← append_assoc,
      take_append_drop, Nat.sub_add_cancel (by omega)]
    rfl
  exact smsGetScAddress_spec hbytes (by rw [length_addressPart]; omega)

theorem smsGetByte_unit : smsGetByte (deliverUnit mtiByte sender coding timestamp data).bytes
      (deliverUnit mtiByte sender coding timestamp data).tpdu = .ok (some (mtiByte.toNat, 2)) := by
  rfl

/-- The address that was read is the one that was written. -/
structure AddressRead.Same (a : AddressRead) (sender : SmsAddress) : Prop where
  len_eq : a.len = sender.len
  toa_eq : a.toa = sender.toa
  data_eq : (semiOctets a.data).take sender.len = (semiOctets sender.data).take sender.len

/-- The readers find the end of the address: it has a filler, and no semi-octet of it looks like
one. -/
def SenderReads (sender : SmsAddress) : Prop :=
  sender.len % 2 = 1 ∧ 3 ≤ sender.len ∧ ∀ v ∈ (semiOctets sender.data).take sender.len, v < 0xe

instance : DecidablePred SenderReads := fun _ => inferInstanceAs (Decidable (_ ∧ _))

theorem scAddress_addressPart (h : SenderReads sender) :
    scAddress (addressPart sender coding timestamp) = some (sender.len, addressData sender) := by
  obtain ⟨hodd, hthree, hall⟩ := h
  have hle := sender.len_le
  have hend : addressEnd (addressPart sender coding timestamp) = sender.len := by
    rw [addressEnd_addressPart, addressEnd_addressField_iff.mpr ⟨hodd, hall⟩]
    omega
  rw [scAddress, hend, length_addressPart, if_pos (by omega), addressPart, take_take,
    min_eq_left (by omega), addressField, ← length_addressData, take_left]

theorem smspduGetSenderAddress_iff (hmti : pduType mtiByte.toNat = .deliver)
    (hlen : sender.len ≠ 0) :
    (∃ a, smspduGetSenderAddress (deliverUnit mtiByte sender coding timestamp data) = .ok (some a) ∧
        a.Same sender) ↔ SenderReads sender := by
  have hread : smspduGetSenderAddress (deliverUnit mtiByte sender coding timestamp data) =
      .ok ((scAddress (addressPart sender coding timestamp)).map fun r =>
        ⟨r.1, sender.toa, r.2⟩) := by
    rw [smspduGetSenderAddress, smsGetByte_unit, ok_bind]
    simp only [hmti]
    rw [smsGetScAddress_unit hlen, ok_bind, Option.map_map]
    rfl
  rw [hread]
  constructor
  · rintro ⟨a, ha, hsame⟩
    obtain ⟨⟨n, zs⟩, hr, rfl⟩ := map_eq_some_iff.mp (ok.inj ha)
    have hn : n = sender.len := hsame.len_eq
    have hpart := length_addressPart sender coding timestamp
    rw [scAddress] at hr
    split_ifs at hr with hend hroom hnil
    · -- a semi-octet ended the address
      obtain ⟨hn', -⟩ := Prod.mk.inj (some.inj hr)
      rw [addressEnd_addressPart] at hend hn'
      obtain ⟨hodd, hall⟩ := addressEnd_addressField_iff.mp
        (show addressEnd (addressField sender coding timestamp) = sender.len by omega)
      exact ⟨hodd, by omega, hall⟩
    · obtain ⟨hn', -⟩ := Prod.mk.inj (some.inj hr)
      rw [hnil, length_nil] at hpart hn'
      omega
    · obtain ⟨hn', -⟩ := Prod.mk.inj (some.inj hr)
      have hpos := length_pos_iff.mpr hnil
      omega
  · intro h
    rw [scAddress_addressPart h]
    refine ⟨_, rfl, rfl, rfl, ?_⟩
    rw [semiOctets_addressData, take_append, take_take, min_self]
    have hlength : ((semiOctets sender.data).take sender.len).length = sender.len := by
      have hle := sender.len_le
      have hdata := sender.length_data
      rw [length_take, length_semiOctets]
      omega
    rw [hlength, Nat.sub_self, take_zero, append_nil]

/-- The timestamp is where the readers look for it: an end of the address is found, or it is
short, and the bytes from the third one of the address on are those of the timestamp. -/
def TimestampReads (sender : SmsAddress) (coding : UInt8) (timestamp : SmsTimeStamp) : Prop :=
  (sender.len ≤ 11 ∨ ∃ v ∈ (semiOctets (addressField sender coding timestamp)).take 20, 0xe ≤ v) ∧
    ((addressField sender coding timestamp).drop 2).take 7 = timestamp.data

instance : Decidable (TimestampReads sender coding timestamp) :=
  inferInstanceAs (Decidable (_ ∧ _))

theorem isSome_scAddress_addressPart (hlen : sender.len ≠ 0) :
    (scAddress (addressPart sender coding timestamp)).isSome ↔
      sender.len ≤ 11 ∨
        ∃ v ∈ (semiOctets (addressField sender coding timestamp)).take 20, 0xe ≤ v := by
  have hends : addressEnd (addressField sender coding timestamp) < 20 ↔
      ∃ v ∈ (semiOctets (addressField sender coding timestamp)).take 20, 0xe ≤ v := by
    have hlength : ((semiOctets (addressField sender coding timestamp)).take 20).length = 20 := by
      rw [length_take, length_semiOctets, length_addressField]
      omega
    calc addressEnd (addressField sender coding timestamp) < 20
        ↔ ((semiOctets (addressField sender coding timestamp)).take 20).findIdx
            (fun v => decide (0xe ≤ v)) < 20 := by
          rw [findIdx_take, addressEnd]
          omega
      _ ↔ ∃ v ∈ (semiOctets (addressField sender coding timestamp)).take 20, 0xe ≤ v := by
          nth_rewrite 2 [← hlength]
          rw [findIdx_lt_length]
          simp
  rw [← hends, scAddress, addressEnd_addressPart, length_addressPart]
  split_ifs <;> simp only [isSome_some, isSome_none, true_iff, Bool.false_eq_true,
    false_iff] <;> omega

theorem smspduGetScTimestamp_iff (hmti : pduType mtiByte.toNat = .deliver) (hlen : sender.len ≠ 0) :
    smspduGetScTimestamp (deliverUnit mtiByte sender coding timestamp data) =
        .ok (some timestamp.data) ↔ TimestampReads sender coding timestamp := by
  have hlength := length_addressField sender coding timestamp
  have htimestamp :
      smsGetTimestamp (deliverUnit mtiByte sender coding timestamp data).bytes (4 + 2) =
      .ok (some (((addressField sender coding timestamp).drop 2).take 7, 4 + 2 + 7)) := by
    have hroom : 4 + 2 + 7 ≤ (deliverUnit mtiByte sender coding timestamp data).bytes.length := by
      rw [bytes_deliverUnit]
      simp only [length_cons, length_append]
      omega
    rw [smsGetTimestamp, if_neg (by omega), readMany_spec 7 hroom, bytes_deliverUnit]
    simp only [ok_bind, pure_eq_ok, drop_succ_cons]
    rw [drop_append_of_le_length (by omega), take_append_of_le_length (by rw [length_drop]; omega)]
  rw [smspduGetScTimestamp, smsGetByte_unit, ok_bind]
  simp only [hmti]
  rw [smsGetScAddress_unit hlen, ok_bind, TimestampReads, ← isSome_scAddress_addressPart hlen]
  cases scAddress (addressPart sender coding timestamp) with
  | none => simp
  | some r =>
    simp only [map_some, htimestamp, ok_bind, pure_eq_ok, isSome_some,
      true_and, ok.injEq, some.injEq]

theorem smsGetTextUtf8_ne_some {coding : SmsCodingScheme} :
    smsGetTextUtf8 bytes cur hasUdh coding false ≠ .ok (some text) := by
  intro htext
  obtain ⟨r, -, htext⟩ := bind_eq_ok.mp htext
  obtain _ | ⟨cur, pad, len⟩ := r
  · simp at htext
  cases coding with
  | gsm7 =>
    obtain ⟨t, -, ht⟩ := bind_eq_ok.mp htext
    simp at ht
  | ucs2 =>
    obtain ⟨t, -, ht⟩ := bind_eq_ok.mp htext
    simp at ht
  | unknown => simp at htext

theorem smspduGetTextMessage_unit (hmti : pduType mtiByte.toNat = .deliver) (text : Bytes) :
    smspduGetTextMessage (deliverUnit mtiByte sender coding timestamp data) ≠ .ok (some text) := by
  intro htext
  obtain ⟨r, hcall, htext⟩ := bind_eq_ok.mp htext
  obtain _ | call := r
  · simp at htext
  have hrope : call.initialised = false := by
    rw [textCall, smsGetByte_unit, ok_bind] at hcall
    simp only [hmti] at hcall
    obtain ⟨r, -, hcall⟩ := bind_eq_ok.mp hcall
    obtain _ | r := r
    · simp at hcall
    obtain ⟨r, -, hcall⟩ := bind_eq_ok.mp hcall
    split_ifs at hcall
    · simp at hcall
    obtain ⟨r, -, hcall⟩ := bind_eq_ok.mp hcall
    obtain _ | r := r
    · simp at hcall
    obtain rfl := some.inj (ok.inj hcall)
    rfl
  simp only [hrope] at htext
  exact smsGetTextUtf8_ne_some htext

end Unit

/-! ### Units that are made -/

theorem smspduCreateDeliver_eq_ok {pdu : SmsPdu}
    (h : smspduCreateDeliver text useGsm7 sender timestamp refNum pduCount pduIndex = .ok pdu) :
    ∃ mtiByte data, pduType (toNat mtiByte) = .deliver ∧
      pdu = deliverUnit mtiByte sender (if useGsm7 then 0 else 8) timestamp data := by
  obtain ⟨data, -, hpdu⟩ := bind_eq_ok.mp h
  refine ⟨if 1 < pduCount then 0x40 else 0, data, ?_, (ok.inj hpdu).symm⟩
  split_ifs <;> rfl

theorem deliverUnits_eq_ok {d : Division} (n : ℕ) : ∀ {src : Bytes} {pdus : List SmsPdu},
      deliverUnits useGsm7 sender timestamp refNum d n src = .ok pdus →
      ∀ pdu ∈ pdus, ∃ mtiByte data, pduType (toNat mtiByte) = .deliver ∧
        pdu = deliverUnit mtiByte sender (if useGsm7 then 0 else 8) timestamp data := by
  induction n with
  | zero =>
    intro src pdus h
    obtain rfl : [] = pdus := ok.inj h
    simp
  | succ n ih =>
    intro src pdus h
    obtain ⟨pdu, hpdu, h⟩ := bind_eq_ok.mp h
    obtain ⟨rest, hrest, h⟩ := bind_eq_ok.mp h
    obtain rfl := ok.inj h
    exact forall_mem_cons.mpr ⟨smspduCreateDeliver_eq_ok hpdu, ih hrest⟩

theorem len_ne_zero_of_smsAddressFromStr (h : smsAddressFromStr src = some sender) :
    sender.len ≠ 0 := by
  rcases or_eq_some_iff.mp h with h | ⟨-, h⟩
  · rw [smsNumericAddressFromStr] at h
    split_ifs at h with hdigits <;> · obtain rfl := some.inj h; simp only; omega
  rw [smsAlphanumAddressFromStr] at h
  split_ifs at h with hlength
  obtain rfl := some.inj h
  simp only
  omega

/-- Of every unit that is made of a text, a sender and a timestamp, the sender is read back if
and only if its address is odd, not one semi-octet and without semi-octets that end it; the
timestamp is read back if and only if it is repeated where the readers look for it; and the text
is never read. -/
theorem deliver_readers_iff (refNum : ℕ) (text src : Bytes) (sender : SmsAddress)
    (hsender : smsAddressFromStr src = some sender) (timestamp : SmsTimeStamp) :
    (smspduCreateDeliverUtf8 refNum text sender timestamp).Ensures (fun r => ∀ pdu ∈ r.1,
      ((∃ a, smspduGetSenderAddress pdu = .ok (some a) ∧ a.Same sender) ↔ SenderReads sender) ∧
      (smspduGetScTimestamp pdu = .ok (some timestamp.data) ↔
        TimestampReads sender (if utf8CheckGsm7 text then 0 else 8) timestamp) ∧
      ∀ t, smspduGetTextMessage pdu ≠ .ok (some t)) fun _ => True := by
  have hlen := len_ne_zero_of_smsAddressFromStr hsender
  cases hcreate : smspduCreateDeliverUtf8 refNum text sender timestamp with
  | error f => trivial
  | ok r =>
    intro pdu hpdu
    obtain ⟨list, hlist, hr⟩ := bind_eq_ok.mp hcreate
    obtain rfl := Except.ok.inj hr
    obtain ⟨mtiByte, data, hmti, rfl⟩ := deliverUnits_eq_ok _ hlist pdu hpdu
    exact ⟨smspduGetSenderAddress_iff hmti hlen, smspduGetScTimestamp_iff hmti hlen,
      smspduGetTextMessage_unit hmti⟩

/-- The text `hi` from `+123`. -/
theorem deliver_readers_iff_hi : ∃ (sender : SmsAddress) (timestamp : SmsTimeStamp),
      smsAddressFromStr [0x2b, 0x31, 0x32, 0x33] = some sender ∧
      (smspduCreateDeliverUtf8 0 [0x68, 0x69] sender timestamp).Ensures (fun r => ∀ pdu ∈ r.1,
        ((∃ a, smspduGetSenderAddress pdu = .ok (some a) ∧ a.Same sender) ↔ SenderReads sender) ∧
        (smspduGetScTimestamp pdu = .ok (some timestamp.data) ↔
          TimestampReads sender (if utf8CheckGsm7 [0x68, 0x69] then 0 else 8) timestamp) ∧
        ∀ t, smspduGetTextMessage pdu ≠ .ok (some t)) fun _ => True :=
  ⟨⟨3, 0x91, [0x21, 0xf3, 0, 0, 0, 0, 0, 0, 0, 0], rfl, by decide⟩,
    ⟨[0x42, 0x21, 0x43, 0x65, 0x87, 0x09, 0x21], rfl⟩, by decide +kernel,
    deliver_readers_iff 0 [0x68, 0x69] [0x2b, 0x31, 0x32, 0x33] _ (by decide +kernel) _⟩

/-- The text `hi` from `12`: three semi-octets are read, the timestamp is read a byte before it
starts, and the text from behind the end of the unit. -/
theorem deliver_misread : ∃ (sender : SmsAddress) (timestamp : SmsTimeStamp) (pdu : SmsPdu),
      smsAddressFromStr [0x31, 0x32] = some sender ∧
      smspduCreateDeliverUtf8 0 [0x68, 0x69] sender timestamp = .ok ([pdu], 1) ∧
      smspduGetSenderAddress pdu = .ok (some ⟨3, 0x81, [0x21]⟩) ∧ sender.len = 2 ∧
      smspduGetScTimestamp pdu = .ok (some (0 :: timestamp.data.take 6)) ∧
      0 :: timestamp.data.take 6 ≠ timestamp.data ∧
      smspduGetTextMessage pdu = .error .outOfBounds :=
  ⟨⟨2, 0x81, [0x21, 0, 0, 0, 0, 0, 0, 0, 0, 0], rfl, by decide⟩,
    ⟨[0x42, 0x21, 0x43, 0x65, 0x87, 0x09, 0x21], rfl⟩,
    ⟨[0, 0, 2, 0x81, 0x21, 0, 0, 0x42, 0x21, 0x43, 0x65, 0x87, 0x09, 0x21, 2, 0xe8, 0x34], 1⟩,
    by decide +kernel⟩

end AndroidEmu.Telephony
