import AndroidEmu.Telephony.Gsm

/-!
# SMS protocol data units

`android/telephony/sms.c`. A unit is its bytes from `base` to `end` and the place of its `tpdu`;
pointers into it are places, and a read at or behind `end` is a fault. A rope that has been
initialised is the bytes written to it; the use of one that was not is a fault.
-/

namespace AndroidEmu.Telephony

open CS List

/-! ### Addresses and timestamps -/

/-- An `SmsAddressRec` that holds its semi-octets. -/
structure SmsAddress where
  len : ℕ
  toa : UInt8
  data : Bytes
  length_data : data.length = 10
  len_le : len ≤ 20
  deriving DecidableEq

/-- `SmsTimeStampRec`. -/
structure SmsTimeStamp where
  data : Bytes
  length_data : data.length = 7
  deriving DecidableEq

def isDigit (c : UInt8) : Bool := 0x30 ≤ c.toNat ∧ c.toNat ≤ 0x39

/-- Digits in semi-octets, with a filler behind an odd number of them. -/
def packDigits : Bytes → Bytes
  | [] => []
  | [c] => [UInt8.ofNat (0xf0 + (c.toNat - 0x30))]
  | c :: d :: src =>
    UInt8.ofNat ((c.toNat - 0x30) + 16 * (d.toNat - 0x30)) :: packDigits src

theorem length_packDigits : ∀ src : Bytes, (packDigits src).length = (src.length + 1) / 2
  | [] => rfl
  | [c] => by simp [packDigits]
  | c :: d :: src => by
    rw [packDigits, length_cons, length_packDigits src, length_cons, length_cons]
    omega

/-- What is not a digit is skipped. -/
def smsNumericAddressFromStr (src : Bytes) : Option SmsAddress :=
  let international := src.head? = some 0x2b
  let digits := (if international then src.drop 1 else src).filter isDigit
  if h : 0 < digits.length ∧ digits.length ≤ 20 then
    some {
      len := digits.length
      toa := if international then 0x91 else 0x81
      data := packDigits digits ++ List.replicate (10 - (packDigits digits).length) 0
      length_data := by
        have := length_packDigits digits
        rw [List.length_append, List.length_replicate]
        omega
      len_le := h.2 }
  else none

/-- `is_in_gsm_default_alphabet`. -/
def isInGsmDefaultAlphabet (c : UInt8) : Bool :=
  let c := c.toNat
  (0x61 ≤ c ∧ c ≤ 0x7a) ∨ (0x41 ≤ c ∧ c ≤ 0x5a) ∨ (0x30 ≤ c ∧ c ≤ 0x39) ∨
    c ∈ [0x40, 0x5f, 0x20, 0x21, 0x22, 0x23, 0x25, 0x26, 0x27, 0x28, 0x29, 0x2a, 0x2b, 0x2c, 0x2d,
      0x2e, 0x2f, 0x3a, 0x3b, 0x3c, 0x3d, 0x3e, 0x3f]

/-- The loop of `sms_alphanum_address_from_str`: characters of seven bits in bytes. -/
def packAlphanum (shifterBits shifterSize : ℕ) : Bytes → Bytes
  | [] => if 0 < shifterSize then [UInt8.ofNat shifterBits] else []
  | c :: src =>
    let shifterBits := shifterBits ||| c.toNat <<< shifterSize
    if 8 ≤ shifterSize + 7 then
      UInt8.ofNat shifterBits :: packAlphanum (shifterBits >>> 8) (shifterSize + 7 - 8) src
    else packAlphanum shifterBits (shifterSize + 7) src

theorem length_packAlphanum (src : Bytes) : ∀ {b size : ℕ}, size < 8 →
      (packAlphanum b size src).length = (size + 7 * src.length + 7) / 8 := by
  induction src with
  | nil =>
    intro bits size hsize
    rw [packAlphanum]
    split_ifs with hpos
    · simp only [length_singleton, length_nil]
      omega
    · simp only [length_nil]
      omega
  | cons c src ih =>
    intro bits size hsize
    rw [packAlphanum]
    by_cases hfull : 8 ≤ size + 7
    · simp only [if_pos hfull, length_cons]
      rw [ih (by omega)]
      omega
    · simp only [if_neg hfull, length_cons]
      rw [ih (by omega)]
      omega

/-- `sms_alphanum_address_from_str`. -/
def smsAlphanumAddressFromStr (src : Bytes) : Option SmsAddress :=
  if h : 0 < src.length ∧ src.length ≤ 11 then
    if src.all isInGsmDefaultAlphabet then
      some {
        len := (src.length * 7 + 3) / 4
        toa := 0xd1
        data := packAlphanum 0 0 src ++ List.replicate (10 - (packAlphanum 0 0 src).length) 0
        length_data := by
          have := length_packAlphanum src (show 0 < 8 by norm_num) (b := 0)
          rw [List.length_append, List.length_replicate]
          omega
        len_le := by omega }
    else none
  else none

/-- `sms_address_from_str`. -/
def smsAddressFromStr (src : Bytes) : Option SmsAddress :=
  (smsNumericAddressFromStr src).or (smsAlphanumAddressFromStr src)

/-! ### Making units -/

/-- `SmsPDURec`. -/
structure SmsPdu where
  bytes : Bytes
  tpdu : ℕ
  deriving DecidableEq

/-- `gsm_rope_add_address`. -/
def addressBytes (a : SmsAddress) : Bytes :=
  let data := a.data.take ((a.len + 1) / 2)
  UInt8.ofNat a.len :: a.toa ::
    if a.len % 2 = 1 then data.modify (data.length - 1) (· ||| 0xf0) else data

/-- `gsm_rope_add_sms_user_header`. -/
def userHeader (refNumber pduCount pduIndex : ℕ) : Bytes :=
  [5, 0, 3, UInt8.ofNat refNumber, UInt8.ofNat pduCount, UInt8.ofNat (pduIndex + 1)]

/-- The user data of `gsm_rope_add_sms_deliver_pdu`, with its length. -/
def userData (text : Bytes) (useGsm7 : Bool) (refNum pduCount pduIndex : ℕ) : Checked Bytes :=
  if useGsm7 then do
    let count := utf8ToGsm7Count text
    if 1 < pduCount then
      check (count ≤ 153)
      let (packed, _) ← utf8ToGsm7 text (List.replicate ((count * 7 + 1 + 7) / 8) 0) 1
      return UInt8.ofNat (count + 7) :: userHeader refNum pduCount pduIndex ++ packed
    else
      check (count ≤ 160)
      let (packed, _) ← utf8ToGsm7 text (List.replicate ((count * 7 + 7) / 8) 0) 0
      return UInt8.ofNat count :: packed
  else do
    let count := (utf8Chars text).length
    if 1 < pduCount then
      check (count * 2 ≤ 134)
      return UInt8.ofNat (count * 2 + 6) :: userHeader refNum pduCount pduIndex ++ utf8ToUcs2 text
    else
      check (count * 2 ≤ 140)
      return UInt8.ofNat (count * 2) :: utf8ToUcs2 text

/-- `smspdu_create_deliver` with `gsm_rope_add_sms_deliver_pdu`. -/
def smspduCreateDeliver (text : Bytes) (useGsm7 : Bool) (sender : SmsAddress)
    (timestamp : SmsTimeStamp) (refNum pduCount pduIndex : ℕ) : Checked SmsPdu := do
  let data ← userData text useGsm7 refNum pduCount pduIndex
  let mtiByte : UInt8 := if 1 < pduCount then 0x40 else 0
  let coding : UInt8 := if useGsm7 then 0 else 8
  return ⟨0 :: mtiByte :: addressBytes sender ++ 0 :: coding :: timestamp.data ++ data, 1⟩

/-- A size in blocks. -/
structure Division where
  block : ℕ
  leftover : ℕ
  numPdus : ℕ

def Division.of (block size : ℕ) : Division :=
  let leftover := size - size / block * block
  ⟨block, leftover, if 0 < leftover then size / block + 1 else size / block⟩

/-- The first part of `smspdu_create_deliver_utf8`: the number of units. For UCS-2 it compares
the number of characters with a number of bytes. -/
def division (text : Bytes) (useGsm7 : Bool) : Division :=
  if useGsm7 then
    let count := utf8ToGsm7Count text
    .of (if 160 < count then 153 else 160) count
  else
    let count := (utf8Chars text).length
    .of (if 140 < count then 134 else 140) (2 * count)

/-- The loop of `smspdu_create_deliver_utf8` over the last `n` units. -/
def deliverUnits (useGsm7 : Bool) (sender : SmsAddress) (timestamp : SmsTimeStamp) (refNum : ℕ)
    (d : Division) : ℕ → Bytes → Checked (List SmsPdu)
  | 0, _ => .ok []
  | n + 1, src => do
    let skip := if 0 < d.leftover ∧ n = 0 then d.leftover else d.block
    let srcNext := if useGsm7 then utf8SkipGsm7 src skip else utf8SkipUcs2 src skip
    let pdu ← smspduCreateDeliver (src.take (src.length - srcNext.length)) useGsm7 sender timestamp
      refNum d.numPdus (d.numPdus - (n + 1))
    let rest ← deliverUnits useGsm7 sender timestamp refNum d n srcNext
    return pdu :: rest

/-- `smspdu_create_deliver_utf8`, with the static reference number. -/
def smspduCreateDeliverUtf8 (refNum : ℕ) (text : Bytes) (sender : SmsAddress)
    (timestamp : SmsTimeStamp) : Checked (List SmsPdu × ℕ) := do
  let useGsm7 := utf8CheckGsm7 text
  let d := division text useGsm7
  let list ← deliverUnits useGsm7 sender timestamp refNum d d.numPdus text
  return (list, wrapNat 8 (refNum + 1))

/-! ### Parsing -/

/-- An address as it is filled in, with the bytes that were written. -/
structure AddressRead where
  len : ℕ
  toa : UInt8
  data : Bytes
  deriving DecidableEq

/-- `sms_get_byte`. -/
def smsGetByte (bytes : Bytes) (cur : ℕ) : Checked (Option (ℕ × ℕ)) :=
  if cur < bytes.length then do
    let b ← readAt bytes cur
    return some (b.toNat, cur + 1)
  else .ok none

/-- The loop of `sms_get_sc_address`, for the bytes that are left. -/
def scAddressLoop (bytes : Bytes) (cur : ℕ) :
    (left dlen adjust : ℕ) → Bytes → Checked (Option (ℕ × Bytes))
  | 0, dlen, adjust, data => .ok (some (2 * dlen + adjust, data))
  | left + 1, dlen, _, data => do
    let c ← readAt bytes (cur + dlen)
    if 10 ≤ dlen then return none
    else if 0xe ≤ c.toNat % 16 then return some (2 * dlen, data)
    else if 0xe ≤ c.toNat / 16 then return some (2 * dlen + 1, data ++ [c])
    else scAddressLoop bytes cur left (dlen + 1) 1 (data ++ [c])

/-- The pointer is left at the data. -/
def smsGetScAddress (bytes : Bytes) (cur : ℕ) : Checked (Option (AddressRead × ℕ)) :=
  if cur < bytes.length then do
    let len ← readAt bytes cur
    let cur := cur + 1
    if len = 0 then return some (⟨0, 0, []⟩, cur)
    else if bytes.length < cur + len.toNat then return none
    else
      let toa ← readAt bytes cur
      let cur := cur + 1
      match ← scAddressLoop bytes cur (len.toNat - 1) 0 0 [] with
      | none => return none
      | some (n, data) => return some (⟨n, toa, data⟩, cur)
  else .ok none

/-- `sms_skip_sc_address`. -/
def smsSkipScAddress (bytes : Bytes) (cur : ℕ) : Checked (Option ℕ) :=
  if cur < bytes.length then do
    let len ← readAt bytes cur
    if bytes.length < cur + 1 + len.toNat then return none
    else return some (cur + 1 + len.toNat)
  else .ok none

def readMany (bytes : Bytes) (cur : ℕ) : ℕ → Checked Bytes
  | 0 => .ok []
  | n + 1 => do
    let b ← readAt bytes cur
    let bs ← readMany bytes (cur + 1) n
    return b :: bs

/-- `sms_get_address`. -/
def smsGetAddress (bytes : Bytes) (cur : ℕ) : Checked (Option (AddressRead × ℕ)) :=
  if cur < bytes.length then do
    let dlen ← readAt bytes cur
    let cur := cur + 1
    if dlen = 0 then return some (⟨0, 0, []⟩, cur)
    else if bytes.length < cur + 1 + (dlen.toNat + 1) / 2 then return none
    else
      let toa ← readAt bytes cur
      let len := (dlen.toNat + 1) / 2
      if 10 < len then return none
      else
        let data ← readMany bytes (cur + 1) len
        return some (⟨dlen.toNat, toa, data⟩, cur + 1 + len)
  else .ok none

/-- `sms_skip_address`. -/
def smsSkipAddress (bytes : Bytes) (cur : ℕ) : Checked (Option ℕ) :=
  if bytes.length < cur + 2 then .ok none
  else do
    let dlen ← readAt bytes cur
    let cur := cur + 2 + (dlen.toNat + 1) / 2
    if bytes.length < cur then return none else return some cur

/-- `sms_get_timestamp`. -/
def smsGetTimestamp (bytes : Bytes) (cur : ℕ) : Checked (Option (Bytes × ℕ)) :=
  if bytes.length < cur + 7 then .ok none
  else do
    let data ← readMany bytes cur 7
    return some (data, cur + 7)

/-- `sms_skip_timestamp`. -/
def smsSkipTimestamp (bytes : Bytes) (cur : ℕ) : Option ℕ :=
  if bytes.length < cur + 7 then none else some (cur + 7)

/-- `sms_skip_validity_period`. -/
def smsSkipValidityPeriod (bytes : Bytes) (cur mtiByte : ℕ) : Option ℕ :=
  let cur :=
    match mtiByte / 8 % 4 with
    | 0 => cur
    | 1 => cur + 1
    | _ => cur + 7
  if bytes.length < cur then none else some cur

inductive SmsPduType
  | invalid
  | deliver
  | submit
  | statusReport
  deriving DecidableEq

/-- The type in the first byte. -/
def pduType (mtiByte : ℕ) : SmsPduType :=
  match mtiByte % 4 with
  | 0 => .deliver
  | 1 => .submit
  | 2 => .statusReport
  | _ => .invalid

/-- The user data has a header. -/
def hasHeader (mtiByte : ℕ) : Bool := mtiByte / 64 % 2 = 1

/-- `smspdu_get_type`. -/
def smspduGetType (pdu : SmsPdu) : Checked SmsPduType := do
  match ← smsGetByte pdu.bytes pdu.tpdu with
  | none => return .invalid
  | some (mtiByte, _) => return pduType mtiByte

/-- `smspdu_get_sender_address`. -/
def smspduGetSenderAddress (pdu : SmsPdu) : Checked (Option AddressRead) := do
  match ← smsGetByte pdu.bytes pdu.tpdu with
  | none => return none
  | some (mtiByte, data) =>
    match pduType mtiByte with
    | .deliver =>
      let r ← smsGetScAddress pdu.bytes data
      return r.map Prod.fst
    | _ => return none

/-- `smspdu_get_sc_timestamp`. -/
def smspduGetScTimestamp (pdu : SmsPdu) : Checked (Option Bytes) := do
  match ← smsGetByte pdu.bytes pdu.tpdu with
  | none => return none
  | some (mtiByte, data) =>
    match pduType mtiByte with
    | .deliver =>
      match ← smsGetScAddress pdu.bytes data with
      | none => return none
      | some (_, data) =>
        let r ← smsGetTimestamp pdu.bytes (data + 2)
        return r.map Prod.fst
    | _ => return none

/-- `smspdu_get_receiver_address`. -/
def smspduGetReceiverAddress (pdu : SmsPdu) : Checked (Option AddressRead) := do
  match ← smsGetByte pdu.bytes pdu.tpdu with
  | none => return none
  | some (mtiByte, data) =>
    match pduType mtiByte with
    | .submit =>
      let r ← smsGetAddress pdu.bytes (data + 1)
      return r.map Prod.fst
    | _ => return none

inductive SmsCodingScheme
  | unknown
  | gsm7
  | ucs2
  deriving DecidableEq

/-- The scheme of a data coding byte. -/
def codingScheme (dataCoding : ℕ) : SmsCodingScheme :=
  if dataCoding / 64 = 0 then
    if dataCoding / 4 % 4 = 0 then .gsm7
    else if dataCoding / 4 % 4 = 2 then .ucs2
    else .unknown
  else if dataCoding / 16 = 15 then
    if dataCoding / 4 % 2 = 0 then .gsm7 else .unknown
  else .unknown

/-- `sms_get_coding_scheme`. -/
def smsGetCodingScheme (bytes : Bytes) (cur : ℕ) : Checked (SmsCodingScheme × ℕ) :=
  if cur < bytes.length then do
    let dataCoding ← readAt bytes cur
    return (codingScheme dataCoding.toNat, cur + 1)
  else .ok (.unknown, cur)

/-- What `sms_get_text_utf8` finds before it decodes: the place of the text, the bits to skip
there and the length. -/
def smsTextPlace (bytes : Bytes) (cur : ℕ) (hasUdh : Bool) (coding : SmsCodingScheme) :
    Checked (Option (ℕ × ℕ × ℕ)) :=
  if cur < bytes.length then do
    let len ← readAt bytes cur
    let cur := cur + 1
    if hasUdh then
      if cur < bytes.length then
        let hlen ← readAt bytes cur
        let cur := cur + 1
        if bytes.length < cur + hlen.toNat then return none
        else
          let cur := cur + hlen.toNat
          let headerBits := (hlen.toNat + 1) * 8
          let headerSeptets := (headerBits + 6) / 7
          let header := if coding = .gsm7 then headerSeptets else hlen.toNat + 1
          let pad := if coding = .gsm7 then headerSeptets * 7 - headerBits else 0
          if len.toNat < header then return none
          else return some (cur, pad, len.toNat - header)
      else return none
    else return some (cur, 0, len.toNat)
  else .ok none

/-- `sms_get_text_utf8` into a rope. The text is decoded once to count its bytes and once into
the bytes that are reserved. -/
def smsGetTextUtf8 (bytes : Bytes) (cur : ℕ) (hasUdh : Bool) (coding : SmsCodingScheme)
    (initialised : Bool) : Checked (Option Bytes) := do
  match ← smsTextPlace bytes cur hasUdh coding with
  | none => return none
  | some (cur, pad, len) =>
    let text ←
      match coding with
      | .gsm7 => utf8FromGsm7 (bytes.drop cur) pad len
      | .ucs2 => ucs2ToUtf8 (bytes.drop cur) (len / 2)
      | .unknown => .ok []
    if initialised then return some text else .error .uninitialized

/-- How `smspdu_get_text_message` calls `sms_get_text_utf8`: with the place of the user data and
its coding, and with a rope that was initialised or not. -/
structure TextCall where
  cur : ℕ
  hasUdh : Bool
  coding : SmsCodingScheme
  initialised : Bool
  deriving DecidableEq

/-- `smspdu_get_text_message` up to the call. For an SMS-DELIVER the rope is not initialised. -/
def textCall (pdu : SmsPdu) : Checked (Option TextCall) := do
  match ← smsGetByte pdu.bytes pdu.tpdu with
  | none => return none
  | some (mtiByte, data) =>
    match pduType mtiByte with
    | .deliver =>
      match ← smsGetScAddress pdu.bytes data with
      | none => return none
      | some (_, data) =>
        let (coding, data) ← smsGetCodingScheme pdu.bytes (data + 1)
        if coding = .unknown then return none
        else
          match ← smsGetTimestamp pdu.bytes data with
          | none => return none
          | some (_, data) => return some ⟨data, hasHeader mtiByte, coding, false⟩
    | .submit =>
      match ← smsGetAddress pdu.bytes (data + 1) with
      | none => return none
      | some (_, data) =>
        let (coding, data) ← smsGetCodingScheme pdu.bytes (data + 1)
        if coding = .unknown then return none
        else
          match smsSkipValidityPeriod pdu.bytes data mtiByte with
          | none => return none
          | some data => return some ⟨data, hasHeader mtiByte, coding, true⟩
    | _ => return none

/-- The text, of which as much is copied as the caller has room for. -/
def smspduGetTextMessage (pdu : SmsPdu) : Checked (Option Bytes) := do
  match ← textCall pdu with
  | none => return none
  | some call => smsGetTextUtf8 pdu.bytes call.cur call.hasUdh call.coding call.initialised

/-- The loop of `smspdu_get_user_data_ref`, for at most `n` rounds. An element moves `data` by its
length, and `len` by its length less two. -/
def userDataRefLoop (bytes : Bytes) : ℕ → ℕ → ℤ → Checked (Option ℕ)
  | 0, _, _ => .error .endless
  | n + 1, data, len =>
    if 2 ≤ len ∧ data + 2 ≤ bytes.length then do
      let htype ← readAt bytes data
      let hlen ← readAt bytes (data + 1)
      if htype = 0 ∧ hlen = 3 ∧ data + 5 ≤ bytes.length then return some (data + 2)
      else if len - (hlen.toNat - 2) < 2 ^ 31 then
        userDataRefLoop bytes n (data + hlen.toNat) (len - (hlen.toNat - 2))
      else .error .overflow
    else .ok none

/-- The place after the fields before the user data, if there is a header in it. -/
def userDataPlace (pdu : SmsPdu) : Checked (Option ℕ) := do
  match ← smsGetByte pdu.bytes pdu.tpdu with
  | none => return none
  | some (mtiByte, data) =>
    if hasHeader mtiByte = false then return none
    else
      match pduType mtiByte with
      | .deliver =>
        match ← smsSkipAddress pdu.bytes data with
        | none => return none
        | some data => return smsSkipTimestamp pdu.bytes (data + 2)
      | .submit =>
        match ← smsSkipAddress pdu.bytes (data + 1) with
        | none => return none
        | some data => return smsSkipValidityPeriod pdu.bytes (data + 2) mtiByte
      | _ => return none

/-- `smspdu_get_user_data_ref`, with at most `n` rounds of its loop. -/
def smspduGetUserDataRef (n : ℕ) (pdu : SmsPdu) : Checked (Option ℕ) := do
  match ← userDataPlace pdu with
  | none => return none
  | some data =>
    if pdu.bytes.length ≤ data + 1 then return none
    else
      let len ← readAt pdu.bytes (data + 1)
      userDataRefLoop pdu.bytes n (data + 2) len.toNat

/-- `smspdu_get_ref`. -/
def smspduGetRef (n : ℕ) (pdu : SmsPdu) : Checked ℤ := do
  match ← smspduGetUserDataRef n pdu with
  | some userRef =>
    let b ← readAt pdu.bytes userRef
    return b.toNat
  | none =>
    match ← smsGetByte pdu.bytes pdu.tpdu with
    | none => return -1
    | some (mtiByte, data) =>
      if pduType mtiByte = .submit ∧ data < pdu.bytes.length then
        let b ← readAt pdu.bytes data
        return b.toNat
      else return -1

/-- `smspdu_get_max_index`. -/
def smspduGetMaxIndex (n : ℕ) (pdu : SmsPdu) : Checked ℤ := do
  match ← smspduGetUserDataRef n pdu with
  | some userRef =>
    let b ← readAt pdu.bytes (userRef + 1)
    return b.toNat
  | none => return 1

/-- `smspdu_get_cur_index`. -/
def smspduGetCurIndex (n : ℕ) (pdu : SmsPdu) : Checked ℤ := do
  match ← smspduGetUserDataRef n pdu with
  | some userRef =>
    let b ← readAt pdu.bytes (userRef + 2)
    return b.toNat - 1
  | none => return 0

/-- `gsm_hexchar_to_int`. -/
def gsmHexcharToInt (c : UInt8) : Option ℕ :=
  let c := c.toNat
  if 0x30 ≤ c ∧ c < 0x3a then some (c - 0x30)
  else if 0x61 ≤ c ∧ c < 0x67 then some (10 + (c - 0x61))
  else if 0x41 ≤ c ∧ c < 0x47 then some (10 + (c - 0x41))
  else none

/-- `gsm_hex_to_bytes`. -/
def gsmHexToBytes : Bytes → Option Bytes
  | [] => some []
  | [_] => none
  | hi :: lo :: hex => do
    let h ← gsmHexcharToInt hi
    let l ← gsmHexcharToInt lo
    let bytes ← gsmHexToBytes hex
    return UInt8.ofNat (h * 16 + l) :: bytes

/-- A digit of `gsm_hex_from_byte`. -/
def hexDigit (n : ℕ) : UInt8 := UInt8.ofNat (if n < 10 then 0x30 + n else 0x61 + (n - 10))

/-- `gsm_hex_from_bytes`. -/
def gsmHexFromBytes (src : Bytes) : Bytes :=
  src.flatMap fun b => [hexDigit (b.toNat / 16), hexDigit (b.toNat % 16)]

theorem gsmHexcharToInt_hexDigit : ∀ n < 16, gsmHexcharToInt (hexDigit n) = some n := by
  decide

theorem gsmHexToBytes_gsmHexFromBytes (src : Bytes) :
    gsmHexToBytes (gsmHexFromBytes src) = some src := by
  induction src with
  | nil => rfl
  | cons b src ih =>
    have hb := b.toNat_lt
    have hbyte : UInt8.ofNat (b.toNat / 16 * 16 + b.toNat % 16) = b := by
      rw [Nat.div_add_mod', UInt8.ofNat_toNat]
    change gsmHexToBytes (hexDigit (b.toNat / 16) :: hexDigit (b.toNat % 16) :: gsmHexFromBytes src)
      = _
    rw [gsmHexToBytes, gsmHexcharToInt_hexDigit _ (by omega), gsmHexcharToInt_hexDigit _ (by omega),
      ih]
    exact congrArg some (congrArg (· :: src) hbyte)

theorem length_gsmHexToBytes {hex bytes : Bytes} (h : gsmHexToBytes hex = some bytes) :
    hex.length = 2 * bytes.length := by
  induction hex using gsmHexToBytes.induct generalizing bytes with
  | case1 =>
    obtain rfl : [] = bytes := by simpa [gsmHexToBytes] using h
    rfl
  | case2 c => simp [gsmHexToBytes] at h
  | case3 hi lo hex ih =>
    simp only [gsmHexToBytes, Option.bind_eq_bind, Option.bind_eq_some_iff] at h
    obtain ⟨x, -, y, -, rest, hrest, hbytes⟩ := h
    obtain rfl := Option.some.inj hbytes
    rw [length_cons, length_cons, length_cons, ih hrest]
    omega

/-- `smspdu_create_from_hex`. -/
def smspduCreateFromHex (hex : Bytes) : Checked (Option SmsPdu) :=
  match gsmHexToBytes hex with
  | none => .ok none
  | some bytes => do
    let data ← smsSkipScAddress bytes 0
    return data.map fun tpdu => ⟨bytes, tpdu⟩

end AndroidEmu.Telephony
