import AndroidEmu.Telephony.ReaderSafety

/-!
# The receiver of SMS-SUBMIT units

`SmsReceiver` of `android/telephony/sms.c` keeps one record for each pair of an address and a
reference. It has as many slots as the first of its units says there are parts, but the part of a
later unit is compared with the number of parts that this unit says, and a record is made before the
part of its unit is looked at. A link of the list of records is the place it leads to, and the last
one their number. The walk over the header of a unit takes one round more than the unit has bytes,
or it does not end.
-/

namespace AndroidEmu.Telephony

open CS Checked List Option Except

variable {pdu : SmsPdu}

/-! ### Records -/

/-- `sms_address_eq`. -/
def smsAddressEq (addr1 addr2 : AddressRead) : Bool :=
  addr1.toa = addr2.toa ∧ addr1.len = addr2.len ∧
    addr1.data.take ((addr1.len + 1) / 2) = addr2.data.take ((addr1.len + 1) / 2)

/-- `SmsFragmentRec`, with its slots. The reference and the two numbers of parts are bytes. -/
structure Fragment where
  address : AddressRead
  ref : ℕ
  max : ℕ
  count : ℕ
  index : ℤ
  pdus : List (Option SmsPdu)
  deriving DecidableEq

/-- `SmsReceiverRec`. -/
structure Receiver where
  last : ℤ
  fragments : List Fragment
  deriving DecidableEq

/-- `sms_receiver_create`. -/
def smsReceiverCreate : Receiver := ⟨0, []⟩

def Fragment.fresh (address : AddressRead) (ref max index : ℤ) : Fragment where
  address := address
  ref := wrapNat 8 ref.toNat
  max := wrapNat 8 max.toNat
  count := 0
  index := index
  pdus := List.replicate max.toNat none

/-- `sms_fragment_alloc`. -/
def smsFragmentAlloc (rcv : Receiver) (address : AddressRead) (ref max : ℤ) :
    Checked (Receiver × Fragment) := do
  let last ← addInt rcv.last 1
  return ({ rcv with last := last }, .fresh address ref max last)

def smsReceiverAppend (rcv : Receiver) (address : AddressRead) (ref max : ℤ) :
    Checked Receiver := do
  let (rcv, frag) ← smsFragmentAlloc rcv address ref max
  return { rcv with fragments := rcv.fragments ++ [frag] }

/-- The test of `sms_receiver_find_p`. -/
def Fragment.isFor (address : AddressRead) (ref : ℤ) (f : Fragment) : Bool :=
  (f.ref : ℤ) = ref ∧ smsAddressEq f.address address

/-- `sms_receiver_find_p`. -/
def smsReceiverFindP (rcv : Receiver) (address : AddressRead) (ref : ℤ) : ℕ :=
  rcv.fragments.findIdx (Fragment.isFor address ref)

/-- A unit takes a slot. One that is there already is freed. -/
def Fragment.put (f : Fragment) (cur : ℕ) (pdu : SmsPdu) : Checked Fragment := do
  let old ← readAt f.pdus cur
  let count := if old.isSome then subNat 8 f.count 1 else f.count
  let pdus ← writeAt f.pdus cur (some pdu)
  return { f with pdus := pdus, count := wrapNat 8 (count + 1) }

/-- The value returned for a unit that was kept. -/
def Fragment.reply (f : Fragment) : ℤ := if f.max ≤ f.count then f.index else 0

/-- The rounds that the walk over the header of a unit is given. -/
def rounds (pdu : SmsPdu) : ℕ := pdu.bytes.length + 1

/-- `sms_receiver_add_submit_pdu`. -/
def smsReceiverAddSubmitPdu (rcv : Receiver) (pdu : SmsPdu) : Checked (Receiver × ℤ) := do
  match ← smspduGetReceiverAddress pdu with
  | none => return (rcv, -1)
  | some address =>
    let ref ← smspduGetRef (rounds pdu) pdu
    if ref < 0 then return (rcv, -1)
    else
      let max ← smspduGetMaxIndex (rounds pdu) pdu
      if max < 0 then return (rcv, -1)
      else
        let pnode := smsReceiverFindP rcv address ref
        -- the link at the end of the list is NULL, and a new record is put there
        let rcv ← match rcv.fragments[pnode]? with
          | some _ => .ok rcv
          | none => smsReceiverAppend rcv address ref max
        let cur ← smspduGetCurIndex (rounds pdu) pdu
        if cur < 0 then return (rcv, -1)
        else if max ≤ cur then return (rcv, -1)
        else
          let frag ← readAt rcv.fragments pnode
          let frag ← frag.put cur.toNat pdu
          return ({ rcv with fragments := rcv.fragments.set pnode frag }, frag.reply)

/-! ### What is read from a unit -/

/-- The fields of a unit that the receiver looks at. -/
structure PartHeader where
  address : AddressRead
  ref : ℤ
  max : ℤ
  cur : ℤ

/-- The readers find these fields in the unit. -/
structure Reads (pdu : SmsPdu) (h : PartHeader) : Prop where
  address : smspduGetReceiverAddress pdu = .ok (some h.address)
  ref : smspduGetRef (rounds pdu) pdu = .ok h.ref
  max : smspduGetMaxIndex (rounds pdu) pdu = .ok h.max
  cur : smspduGetCurIndex (rounds pdu) pdu = .ok h.cur

/-- The part is one of those that the unit says there are. -/
def PartHeader.Proper (h : PartHeader) : Prop := 0 ≤ h.cur ∧ h.cur < h.max

instance (h : PartHeader) : Decidable h.Proper := inferInstanceAs (Decidable (_ ∧ _))

theorem PartHeader.ite_ite_proper {α : Type} (h : PartHeader) {x y : α} :
    (if h.cur < 0 then x else if h.max ≤ h.cur then x else y) = if h.Proper then y else x := by
  by_cases hlow : h.cur < 0
  · rw [if_pos hlow, if_neg fun hproper => not_le.mpr hlow hproper.1]
  by_cases hhigh : h.max ≤ h.cur
  · rw [if_neg hlow, if_pos hhigh, if_neg fun hproper => not_lt.mpr hhigh hproper.2]
  · rw [if_neg hlow, if_neg hhigh, if_pos ⟨not_lt.mp hlow, not_le.mp hhigh⟩]

variable {address : AddressRead}

namespace Reads

variable {h h' : PartHeader}

theorem unique (hr : Reads pdu h) (hr' : Reads pdu h') : h = h' := by
  obtain ⟨address', ref', max', cur'⟩ := h'
  obtain rfl := some.inj (ok.inj (hr.address.symm.trans hr'.address))
  obtain rfl := ok.inj (hr.ref.symm.trans hr'.ref)
  obtain rfl := ok.inj (hr.max.symm.trans hr'.max)
  obtain rfl := ok.inj (hr.cur.symm.trans hr'.cur)
  rfl

theorem of_address (hr : smspduGetReceiverAddress pdu = .ok (some address)) :
    ∃ mtiByte data, smsGetByte pdu.bytes pdu.tpdu = .ok (some (mtiByte, data)) ∧
      pduType mtiByte = .submit ∧ data < pdu.bytes.length := by
  obtain ⟨r, hbyte, hr⟩ := bind_eq_ok.mp hr
  obtain _ | ⟨mtiByte, data⟩ := r
  · cases hr
  refine ⟨mtiByte, data, hbyte, ?_⟩
  dsimp only at hr
  cases htype : pduType mtiByte with
  | submit =>
    refine ⟨rfl, ?_⟩
    rw [htype] at hr
    obtain ⟨a, ha, hr⟩ := bind_eq_ok.mp hr
    -- the address is read one byte further on
    rw [smsGetAddress] at ha
    split_ifs at ha with hlt
    · omega
    · cases ha
      cases hr
  | _ => rw [htype] at hr; cases hr

theorem ref_bounds (hr : Reads pdu h) : 0 ≤ h.ref ∧ h.ref < 256 := by
  obtain ⟨mtiByte, data, hbyte, htype, hlt⟩ := of_address hr.address
  obtain ⟨r, -, href⟩ := bind_eq_ok.mp hr.ref
  obtain _ | d := r
  · rw [hbyte, ok_bind] at href
    simp only [htype, hlt, and_self, if_true] at href
    obtain ⟨b, -, hb⟩ := bind_eq_ok.mp href
    have hlt := b.toNat_lt
    have hb := ok.inj hb
    omega
  · obtain ⟨b, -, hb⟩ := bind_eq_ok.mp href
    have hlt := b.toNat_lt
    have hb := ok.inj hb
    omega

theorem max_bounds (hr : Reads pdu h) : 0 ≤ h.max ∧ h.max < 256 := by
  obtain ⟨r, -, hmax⟩ := bind_eq_ok.mp hr.max
  obtain _ | d := r
  · have hone := ok.inj hmax
    omega
  · obtain ⟨b, -, hb⟩ := bind_eq_ok.mp hmax
    have hlt := b.toNat_lt
    have hb := ok.inj hb
    omega

end Reads

/-- `smspdu_create_from_hex` made the unit of a string whose length is an `int`. -/
def SmsPdu.Parsed (pdu : SmsPdu) : Prop :=
  ∃ hex : Bytes, hex.length < 2 ^ 31 ∧ smspduCreateFromHex hex = .ok (some pdu)

theorem SmsPdu.Parsed.length_lt (h : pdu.Parsed) : pdu.bytes.length < 2 ^ 30 := by
  obtain ⟨hex, hhex, hpdu⟩ := h
  rw [smspduCreateFromHex] at hpdu
  cases hbytes : gsmHexToBytes hex with
  | none => simp [hbytes] at hpdu
  | some bytes =>
    rw [hbytes] at hpdu
    obtain ⟨r, -, hr⟩ := bind_eq_ok.mp hpdu
    obtain ⟨tpdu, -, rfl⟩ := map_eq_some_iff.mp (ok.inj hr)
    have := length_gsmHexToBytes hbytes
    dsimp only
    omega

theorem exists_reads (hbytes : pdu.bytes.length < 2 ^ 30)
    (haddress : smspduGetReceiverAddress pdu = .ok (some address)) (hstalls : ¬ HeaderStalls pdu) :
    ∃ h, Reads pdu h := by
  obtain ⟨r, hr, hinside⟩ := smspduGetUserDataRef_spec hbytes hstalls
  obtain ⟨ref, href⟩ := smspduGetRef_isOk hr hinside
  obtain ⟨max, hmax⟩ := smspduGetMaxIndex_isOk hr hinside
  obtain ⟨cur, hcur⟩ := smspduGetCurIndex_isOk hr hinside
  exact ⟨⟨address, ref, max, cur⟩, haddress, href, hmax, hcur⟩

/-! ### What a call does -/

section Call

variable {rcv : Receiver} {h : PartHeader}

/-- The last part of `sms_receiver_add_submit_pdu`: the unit takes a slot of the record at a
place. -/
def Receiver.keep (rcv : Receiver) (pnode : ℕ) (f : Fragment) (cur : ℕ) (pdu : SmsPdu) :
    Checked (Receiver × ℤ) := do
  let f ← f.put cur pdu
  return ({ rcv with fragments := rcv.fragments.set pnode f }, f.reply)

theorem smsReceiverAddSubmitPdu_no_address (haddress : smspduGetReceiverAddress pdu = .ok none) :
    smsReceiverAddSubmitPdu rcv pdu = .ok (rcv, -1) := by
  rw [smsReceiverAddSubmitPdu, haddress]
  rfl

theorem smsReceiverAddSubmitPdu_stalls
    (haddress : smspduGetReceiverAddress pdu = .ok (some address)) (hstalls : HeaderStalls pdu) :
    ¬ (smsReceiverAddSubmitPdu rcv pdu).IsOk := by
  rw [smsReceiverAddSubmitPdu, haddress, ok_bind]
  intro hok
  obtain ⟨ref, href, -⟩ := isOk_bind_iff.mp hok
  obtain ⟨r, hr, -⟩ := bind_eq_ok.mp href
  exact hstalls.not_isOk _ ⟨r, hr⟩

theorem smsReceiverAddSubmitPdu_found {f : Fragment} (hr : Reads pdu h)
    (hf : rcv.fragments[smsReceiverFindP rcv h.address h.ref]? = some f) :
    smsReceiverAddSubmitPdu rcv pdu =
      if h.Proper then rcv.keep (smsReceiverFindP rcv h.address h.ref) f h.cur.toNat pdu
      else .ok (rcv, -1) := by
  have href := hr.ref_bounds.1
  have hmax := hr.max_bounds.1
  simp only [smsReceiverAddSubmitPdu, hr.address, hr.ref, hr.max, hr.cur, ok_bind,
    if_neg (not_lt.mpr href), if_neg (not_lt.mpr hmax), hf, readAt_of_getElem? hf]
  exact h.ite_ite_proper

def Receiver.grown (rcv : Receiver) (h : PartHeader) : Receiver where
  last := rcv.last + 1
  fragments := rcv.fragments ++ [.fresh h.address h.ref h.max (rcv.last + 1)]

theorem findP_eq_length (hnone : rcv.fragments[smsReceiverFindP rcv h.address h.ref]? = none) :
    smsReceiverFindP rcv h.address h.ref = rcv.fragments.length :=
  le_antisymm findIdx_le_length (List.getElem?_eq_none_iff.mp hnone)

theorem smsReceiverAddSubmitPdu_absent (hr : Reads pdu h)
    (hnone : rcv.fragments[smsReceiverFindP rcv h.address h.ref]? = none) (hlast : 0 ≤ rcv.last) :
    smsReceiverAddSubmitPdu rcv pdu = if rcv.last + 1 < 2 ^ 31 then
        if h.Proper then
          (rcv.grown h).keep rcv.fragments.length (.fresh h.address h.ref h.max (rcv.last + 1))
            h.cur.toNat pdu
        else .ok (rcv.grown h, -1)
      else .error .overflow := by
  have href := hr.ref_bounds.1
  have hmax := hr.max_bounds.1
  have hlength := findP_eq_length hnone
  simp only [smsReceiverAddSubmitPdu, hr.address, hr.ref, hr.max, hr.cur, ok_bind,
    if_neg (not_lt.mpr href), if_neg (not_lt.mpr hmax), hnone]
  by_cases hroom : rcv.last + 1 < 2 ^ 31
  · have happend : smsReceiverAppend rcv h.address h.ref h.max = .ok (rcv.grown h) := by
      rw [smsReceiverAppend, smsFragmentAlloc, addInt_of_bounds (by omega) hroom]
      rfl
    have hread : readAt (rcv.grown h).fragments rcv.fragments.length =
        .ok (.fresh h.address h.ref h.max (rcv.last + 1)) := readAt_append_cons _ _ _
    rw [happend, if_pos hroom, hlength]
    simp only [ok_bind, hread]
    exact h.ite_ite_proper
  · rw [smsReceiverAppend, smsFragmentAlloc, addInt_of_le (by omega), if_neg hroom]
    rfl

end Call

/-! ### Counted slots -/

def Fragment.stored (f : Fragment) : ℕ := f.pdus.countP Option.isSome

def Fragment.Complete (f : Fragment) : Prop := ∀ i < f.max, ∃ pdu, f.pdus[i]? = some (some pdu)

structure Fragment.Sound (f : Fragment) : Prop where
  length_pdus : f.pdus.length = f.max
  max_lt : f.max < 256
  count_eq : f.count = f.stored
  index_pos : 0 < f.index

namespace Fragment.Sound

variable {f : Fragment}

theorem fresh {ref max index : ℤ} (hmax : max < 256) (hindex : 0 < index) :
    (Fragment.fresh address ref max index).Sound where
  length_pdus := by
    have hwrap : wrapNat 8 max.toNat = max.toNat := wrapNat_of_lt (by omega)
    exact length_replicate.trans hwrap.symm
  max_lt := wrapNat_lt 8 _
  count_eq := by
    rw [Fragment.stored, Fragment.fresh, countP_replicate]
    rfl
  index_pos := hindex

section

variable (hf : f.Sound)

include hf

theorem count_le : f.count ≤ f.max := by
  rw [hf.count_eq, ← hf.length_pdus]
  exact countP_le_length

theorem complete_iff : f.Complete ↔ f.max ≤ f.count := by
  have hall : f.Complete ↔ ∀ slot ∈ f.pdus, isSome slot := by
    constructor
    · intro hcomplete slot hslot
      obtain ⟨i, hi⟩ := mem_iff_getElem?.mp hslot
      have hlt := (List.getElem?_eq_some_iff.mp hi).1
      obtain ⟨pdu, hpdu⟩ := hcomplete i (hf.length_pdus ▸ hlt)
      obtain rfl := some.inj (hi.symm.trans hpdu)
      rfl
    · intro hsome i hi
      rw [← hf.length_pdus] at hi
      obtain ⟨pdu, hpdu⟩ := isSome_iff_exists.mp (hsome _ (getElem_mem hi))
      exact ⟨pdu, by rw [getElem?_eq_getElem hi, hpdu]⟩
  rw [hall, ← countP_eq_length, hf.length_pdus]
  have hle := hf.count_le
  have hcount : f.count = f.pdus.countP isSome := hf.count_eq
  omega

theorem reply_eq : (f.Complete → f.reply = f.index) ∧ (¬ f.Complete → f.reply = 0) := by
  rw [hf.complete_iff]
  exact ⟨fun h => if_pos h, fun h => if_neg h⟩

/-- A unit that takes a slot: the number of parts is the one of the slots taken, whether there was
a unit already or not. -/
theorem put_eq {cur : ℕ} (hcur : cur < f.max) (pdu : SmsPdu) : f.put cur pdu = .ok { f with
      pdus := f.pdus.set cur (some pdu)
      count := (f.pdus.set cur (some pdu)).countP Option.isSome } := by
  have hlt : cur < f.pdus.length := hf.length_pdus ▸ hcur
  have hmax := hf.max_lt
  have hle := hf.count_le
  have hcount : f.count = f.pdus.countP isSome := hf.count_eq
  have hnew : (f.pdus.set cur (some pdu)).countP isSome ≤ f.max := by
    rw [← hf.length_pdus, ← length_set]
    exact countP_le_length
  rw [Fragment.put, readAt_of_getElem? (getElem?_eq_getElem hlt), ok_bind, writeAt_of_lt hlt]
  simp only [ok_bind, pure_eq_ok]
  rw [countP_set hlt] at hnew ⊢
  simp only [isSome_some, if_true] at hnew ⊢
  congr 2
  by_cases hold : f.pdus[cur].isSome
  · have hpos : 0 < f.pdus.countP isSome :=
      countP_pos_iff.mpr ⟨_, getElem_mem hlt, hold⟩
    rw [if_pos hold, subNat_of_le (by omega) (by omega), if_pos hold, wrapNat_of_lt (by omega),
      hcount]
  · rw [if_neg hold] at hnew
    rw [if_neg hold, if_neg hold, wrapNat_of_lt (by omega), hcount, Nat.sub_zero]

theorem put {cur : ℕ} (pdu : SmsPdu) : Fragment.Sound { f with
      pdus := f.pdus.set cur (some pdu)
      count := (f.pdus.set cur (some pdu)).countP Option.isSome } where
  length_pdus := by
    rw [length_set]
    exact hf.length_pdus
  max_lt := hf.max_lt
  count_eq := rfl
  index_pos := hf.index_pos

theorem put_of_le {cur : ℕ} (hcur : f.max ≤ cur) (pdu : SmsPdu) :
    f.put cur pdu = .error .outOfBounds := by
  rw [Fragment.put, readAt_of_le (hf.length_pdus ▸ hcur)]
  rfl

end

end Fragment.Sound

/-! ### The receiver -/

def Receiver.record (rcv : Receiver) (h : PartHeader) : Option Fragment :=
  rcv.fragments[smsReceiverFindP rcv h.address h.ref]?

structure Receiver.Sound (rcv : Receiver) : Prop where
  last_nonneg : 0 ≤ rcv.last
  fragments : ∀ f ∈ rcv.fragments, f.Sound

theorem smsReceiverCreate_sound : smsReceiverCreate.Sound := ⟨le_rfl, by simp [smsReceiverCreate]⟩

/-- What is asked of a call: the numbers of the records agree with their slots; a unit that is
refused leaves the records as they were; any other is in a slot of its record, whose index is
returned if all parts are there. -/
def Receiver.Behaves (rcv : Receiver) (pdu : SmsPdu) : Prop :=
  ∃ rcv' o, smsReceiverAddSubmitPdu rcv pdu = .ok (rcv', o) ∧
    (∀ f ∈ rcv'.fragments, f.count = f.stored ∧ f.count ≤ f.max) ∧
    (o = -1 → rcv'.fragments = rcv.fragments) ∧
    (o ≠ -1 → ∃ h f, Reads pdu h ∧ rcv'.record h = some f ∧
      0 ≤ h.cur ∧ h.cur < f.max ∧ f.pdus[h.cur.toNat]? = some (some pdu) ∧
      (f.Complete → 0 < o ∧ o = f.index) ∧ (¬ f.Complete → o = 0))

/-- The walk over the header ends. A unit of an unknown message has a part, and there is an index
for the message. A unit of a known one has a part that the record has a slot for, unless the unit
refutes itself. -/
def Receiver.Fits (rcv : Receiver) (pdu : SmsPdu) : Prop :=
  ∀ address, smspduGetReceiverAddress pdu = .ok (some address) →
    ¬ HeaderStalls pdu ∧ ∀ h, Reads pdu h → match rcv.record h with
      | none => h.Proper ∧ rcv.last + 1 < 2 ^ 31
      | some f => h.Proper → h.cur < f.max

theorem findIdx_set {α : Type} {p : α → Bool} {x : α} (hx : p x) :
    ∀ xs : List α, (xs.set (xs.findIdx p) x).findIdx p = xs.findIdx p
  | [] => rfl
  | y :: xs => by
    by_cases hy : p y
    · simp [findIdx_cons, hx, hy]
    · simp [findIdx_cons, hy, findIdx_set hx xs]

section Step

variable {rcv rcv' : Receiver} {h : PartHeader} {f : Fragment}

theorem Receiver.Sound.keep (hs : rcv.Sound) (hrecord : rcv.record h = some f)
    (hproper : h.Proper) (hslot : h.cur < f.max) (pdu : SmsPdu) :
    ∃ rcv' f', rcv.keep (smsReceiverFindP rcv h.address h.ref) f h.cur.toNat pdu =
        .ok (rcv', f'.reply) ∧
      rcv'.Sound ∧ rcv'.last = rcv.last ∧
      rcv'.fragments = rcv.fragments.set (smsReceiverFindP rcv h.address h.ref) f' ∧
      rcv'.record h = some f' ∧
      f' = { f with
        pdus := f.pdus.set h.cur.toNat (some pdu)
        count := (f.pdus.set h.cur.toNat (some pdu)).countP Option.isSome } := by
  have hf : f.Sound := hs.fragments f (mem_of_getElem? hrecord)
  have hcur : h.cur.toNat < f.max := by
    have := hproper.1
    omega
  have hlt := (List.getElem?_eq_some_iff.mp hrecord).1
  rw [Receiver.keep, hf.put_eq hcur]
  refine ⟨_, _, rfl, ⟨hs.last_nonneg, ?_⟩, rfl, rfl, ?_, rfl⟩
  · intro g hg
    obtain hg | rfl := mem_or_eq_of_mem_set hg
    · exact hs.fragments g hg
    · exact hf.put pdu
  · -- the record is still the first one for its address and reference
    have hfor : Fragment.isFor h.address h.ref f := findIdx_of_getElem?_eq_some hrecord
    unfold smsReceiverFindP at hlt
    rw [Receiver.record, smsReceiverFindP]
    rw [smsReceiverFindP, findIdx_set (by exact hfor), List.getElem?_set_self hlt]

theorem smsAddressEq_refl (a : AddressRead) : smsAddressEq a a := by simp [smsAddressEq]

theorem Receiver.Sound.grown (hs : rcv.Sound) (hr : Reads pdu h) (hnone : rcv.record h = none) :
    (rcv.grown h).Sound ∧ smsReceiverFindP (rcv.grown h) h.address h.ref = rcv.fragments.length ∧
      (rcv.grown h).record h = some (.fresh h.address h.ref h.max (rcv.last + 1)) := by
  have hlast := hs.last_nonneg
  have hlength : rcv.fragments.findIdx (Fragment.isFor h.address h.ref) = rcv.fragments.length :=
    findP_eq_length hnone
  have hfor : Fragment.isFor h.address h.ref
      (.fresh h.address h.ref h.max (rcv.last + 1)) = true := by
    obtain ⟨hlow, hhigh⟩ := hr.ref_bounds
    have hwrap : wrapNat 8 h.ref.toNat = h.ref.toNat := wrapNat_of_lt (by omega)
    simp [Fragment.isFor, Fragment.fresh, smsAddressEq_refl, hwrap, hlow]
  have hfind : smsReceiverFindP (rcv.grown h) h.address h.ref = rcv.fragments.length := by
    rw [smsReceiverFindP, Receiver.grown, findIdx_append, hlength, if_neg (lt_irrefl _),
      findIdx_cons, hfor]
    exact Nat.zero_add _
  refine ⟨⟨by dsimp only [Receiver.grown]; omega, ?_⟩, hfind, ?_⟩
  · intro g hg
    obtain hg | hg := mem_append.mp hg
    · exact hs.fragments g hg
    · obtain rfl := mem_singleton.mp hg
      exact .fresh hr.max_bounds.2 (by omega)
  · rw [Receiver.record, hfind]
    exact getElem?_concat_length

theorem Receiver.Sound.behaves_of_keep (hs : rcv'.Sound) (hr : Reads pdu h)
    (hrecord : rcv'.record h = some f) (hproper : h.Proper) (hslot : h.cur < f.max)
    (hcall : smsReceiverAddSubmitPdu rcv pdu =
      rcv'.keep (smsReceiverFindP rcv' h.address h.ref) f h.cur.toNat pdu) :
    rcv.Behaves pdu := by
  obtain ⟨rcv1, f1, hkeep, hsound, -, -, hrecord1, hf1⟩ := hs.keep hrecord hproper hslot pdu
  have hf : f1.Sound := hsound.fragments f1 (mem_of_getElem? hrecord1)
  have hpos := hf.index_pos
  obtain ⟨hfull, hopen⟩ := hf.reply_eq
  refine ⟨rcv1, f1.reply, hcall.trans hkeep, fun g hg => ?_, fun hrefused => ?_, fun _ => ?_⟩
  · exact ⟨(hsound.fragments g hg).count_eq, (hsound.fragments g hg).count_le⟩
  · by_cases hcomplete : f1.Complete
    · have := hfull hcomplete
      omega
    · have := hopen hcomplete
      omega
  · refine ⟨h, f1, hr, hrecord1, hproper.1, by rw [hf1]; exact hslot, ?_,
      fun hcomplete => ⟨by rw [hfull hcomplete]; exact hpos, hfull hcomplete⟩, hopen⟩
    rw [hf1]
    refine List.getElem?_set_self ?_
    have := (hs.fragments f (mem_of_getElem? hrecord)).length_pdus
    have := hproper.1
    omega

theorem Receiver.Sound.behaves_iff (hs : rcv.Sound) (hparsed : pdu.Parsed) :
    rcv.Behaves pdu ↔ rcv.Fits pdu := by
  obtain ⟨r, haddress⟩ := smspduGetReceiverAddress_isOk pdu
  obtain _ | address := r
  · -- the unit has no receiver
    refine ⟨fun _ address haddress' => ?_, fun _ => ⟨rcv, -1, ?_, fun g hg => ?_, fun _ => rfl, ?_⟩⟩
    · rw [haddress] at haddress'
      cases haddress'
    · exact smsReceiverAddSubmitPdu_no_address haddress
    · exact ⟨(hs.fragments g hg).count_eq, (hs.fragments g hg).count_le⟩
    · exact fun hne => absurd rfl hne
  by_cases hstalls : HeaderStalls pdu
  · refine ⟨?_, fun hfits => absurd hstalls (hfits address haddress).1⟩
    rintro ⟨rcv', o, hcall, -⟩
    exact absurd ⟨_, hcall⟩ (smsReceiverAddSubmitPdu_stalls haddress hstalls)
  obtain ⟨h, hr⟩ := exists_reads hparsed.length_lt haddress hstalls
  have hfits : rcv.Fits pdu ↔ match rcv.record h with
      | none => h.Proper ∧ rcv.last + 1 < 2 ^ 31
      | some f => h.Proper → h.cur < f.max := by
    refine ⟨fun hfits => (hfits _ haddress).2 h hr, fun hfits _ _ => ⟨hstalls, fun h' hr' => ?_⟩⟩
    rw [← hr.unique hr']
    exact hfits
  rw [hfits]
  cases hrecord : rcv.record h with
  | some f =>
    have hcall := smsReceiverAddSubmitPdu_found hr hrecord
    have hf : f.Sound := hs.fragments f (mem_of_getElem? hrecord)
    constructor
    · rintro ⟨rcv', o, hcall', -⟩ hproper
      by_contra hslot
      rw [hcall, if_pos hproper, Receiver.keep, hf.put_of_le (by omega)] at hcall'
      cases hcall'
    · intro hslot
      by_cases hproper : h.Proper
      · exact hs.behaves_of_keep hr hrecord hproper (hslot hproper) (hcall.trans (if_pos hproper))
      · refine ⟨rcv, -1, hcall.trans (if_neg hproper), fun g hg => ?_, fun _ => rfl,
          fun hne => absurd rfl hne⟩
        exact ⟨(hs.fragments g hg).count_eq, (hs.fragments g hg).count_le⟩
  | none =>
    have hcall := smsReceiverAddSubmitPdu_absent hr hrecord hs.last_nonneg
    obtain ⟨hgrown, hfind, hrecord'⟩ := hs.grown hr hrecord
    constructor
    · rintro ⟨rcv', o, hcall', -, hsame, -⟩
      rw [hcall] at hcall'
      by_cases hroom : rcv.last + 1 < 2 ^ 31
      · refine ⟨?_, hroom⟩
        by_contra hproper
        -- the unit is refused, but its record stays
        rw [if_pos hroom, if_neg hproper] at hcall'
        obtain ⟨rfl, rfl⟩ := pair_inj hcall'
        have hlength := congrArg List.length (hsame rfl)
        simp [Receiver.grown] at hlength
      · rw [if_neg hroom] at hcall'
        cases hcall'
    · rintro ⟨hproper, hroom⟩
      have hmax : wrapNat 8 h.max.toNat = h.max.toNat := by
        have := hr.max_bounds
        exact wrapNat_of_lt (by omega)
      refine hgrown.behaves_of_keep hr hrecord' hproper ?_ ?_
      · have := hr.max_bounds.1
        have := hproper.2
        simp only [Fragment.fresh, hmax]
        omega
      · rw [hcall, if_pos hroom, if_pos hproper, hfind]

theorem Receiver.Sound.call (hs : rcv.Sound) (hparsed : pdu.Parsed) {o : ℤ}
    (hcall : smsReceiverAddSubmitPdu rcv pdu = .ok (rcv', o)) : rcv'.Sound := by
  have of_keep : ∀ {s : Receiver} {h : PartHeader} {f : Fragment}, s.Sound → s.record h = some f →
      h.Proper → s.keep (smsReceiverFindP s h.address h.ref) f h.cur.toNat pdu = .ok (rcv', o) →
      rcv'.Sound := by
    intro s h f hs hrecord hproper hkeep
    have hf := hs.fragments f (mem_of_getElem? hrecord)
    have hslot : h.cur < f.max := by
      by_contra hslot
      rw [Receiver.keep, hf.put_of_le (by omega)] at hkeep
      cases hkeep
    obtain ⟨rcv1, f1, hkeep1, hsound, -⟩ := hs.keep hrecord hproper hslot pdu
    obtain ⟨rfl, -⟩ := Prod.mk.inj (ok.inj (hkeep1.symm.trans hkeep))
    exact hsound
  obtain ⟨r, haddress⟩ := smspduGetReceiverAddress_isOk pdu
  obtain _ | address := r
  · rw [smsReceiverAddSubmitPdu_no_address haddress] at hcall
    obtain ⟨rfl, -⟩ := pair_inj hcall
    exact hs
  have hstalls : ¬ HeaderStalls pdu := fun hstalls =>
    smsReceiverAddSubmitPdu_stalls haddress hstalls ⟨_, hcall⟩
  obtain ⟨h, hr⟩ := exists_reads hparsed.length_lt haddress hstalls
  cases hrecord : rcv.record h with
  | some f =>
    rw [smsReceiverAddSubmitPdu_found hr hrecord] at hcall
    split_ifs at hcall with hproper
    · exact of_keep hs hrecord hproper hcall
    · obtain ⟨rfl, -⟩ := pair_inj hcall
      exact hs
  | none =>
    obtain ⟨hgrown, hfind, hrecord'⟩ := hs.grown hr hrecord
    rw [smsReceiverAddSubmitPdu_absent hr hrecord hs.last_nonneg, ← hfind] at hcall
    split_ifs at hcall with hroom hproper
    · exact of_keep hgrown hrecord' hproper hcall
    · obtain ⟨rfl, -⟩ := pair_inj hcall
      exact hgrown

end Step

/-- All calls of a run do what is asked of them if and only if all units fit: no header stalls, a
unit that starts a record is a part of its message, and a unit of a record that is there has no
part behind the slots. -/
theorem run_behaves_iff (pdus : List SmsPdu) (hparsed : ∀ pdu ∈ pdus, pdu.Parsed) :
    Meets smsReceiverAddSubmitPdu Receiver.Behaves smsReceiverCreate pdus ↔
      Meets smsReceiverAddSubmitPdu Receiver.Fits smsReceiverCreate pdus := by
  apply meets_congr Receiver.Sound pdus
  · exact fun rcv pdu hpdu hs => hs.behaves_iff (hparsed pdu hpdu)
  · exact fun rcv pdu hpdu rcv' o hs _ hcall => hs.call (hparsed pdu hpdu) hcall
  · exact smsReceiverCreate_sound

/-- An SMS-SUBMIT to the number 1 with the reference 7 and a text of one character. -/
def smallUnit (max cur c : UInt8) : SmsPdu :=
  ⟨[0, 0x41, 0, 1, 0x81, 0xf1, 0, 8, 8, 5, 0, 3, 7, max, cur, 0, c], 1⟩

theorem smallUnit_parsed (max cur c : UInt8) : (smallUnit max cur c).Parsed := by
  refine ⟨gsmHexFromBytes (smallUnit max cur c).bytes, ?_, ?_⟩
  · have := length_gsmHexToBytes (gsmHexToBytes_gsmHexFromBytes (smallUnit max cur c).bytes)
    rw [this, smallUnit]
    norm_num
  · rw [smspduCreateFromHex, gsmHexToBytes_gsmHexFromBytes]
    rfl

/-- The two parts of a text. -/
theorem run_behaves_iff_two_parts : (∀ pdu ∈ [smallUnit 2 1 0x61, smallUnit 2 2 0x62], pdu.Parsed) ∧
      (Meets smsReceiverAddSubmitPdu Receiver.Behaves smsReceiverCreate
          [smallUnit 2 1 0x61, smallUnit 2 2 0x62] ↔
        Meets smsReceiverAddSubmitPdu Receiver.Fits smsReceiverCreate
          [smallUnit 2 1 0x61, smallUnit 2 2 0x62]) := by
  have hparsed : ∀ pdu ∈ [smallUnit 2 1 0x61, smallUnit 2 2 0x62], pdu.Parsed := by
    simp [smallUnit_parsed]
  exact ⟨hparsed, run_behaves_iff _ hparsed⟩

/-- A part number of zero makes a record and is refused; and a unit that says there are two parts,
behind one that says there is one, is written behind the only slot. -/
theorem refused_unit_leaves_record :
    (∀ pdu ∈ [smallUnit 2 0 0x61, smallUnit 1 1 0x61, smallUnit 2 2 0x62], pdu.Parsed) ∧
      ¬ Meets smsReceiverAddSubmitPdu Receiver.Behaves smsReceiverCreate [smallUnit 2 0 0x61] ∧
      (run smsReceiverAddSubmitPdu smsReceiverCreate [smallUnit 1 1 0x61, smallUnit 2 2 0x62]).2 =
        .error .outOfBounds ∧
      ¬ Meets smsReceiverAddSubmitPdu Receiver.Behaves smsReceiverCreate
        [smallUnit 1 1 0x61, smallUnit 2 2 0x62] := by
  have hstop : (run smsReceiverAddSubmitPdu smsReceiverCreate
      [smallUnit 1 1 0x61, smallUnit 2 2 0x62]).2 = .error .outOfBounds := by decide +kernel
  refine ⟨by simp [smallUnit_parsed], ?_, hstop, ?_⟩
  · rintro ⟨⟨rcv', o, hcall, -, hsame, -⟩, -⟩
    have heval : (smsReceiverAddSubmitPdu smsReceiverCreate (smallUnit 2 0 0x61)).map
        (fun p => (p.1.fragments.length, p.2)) = .ok (1, -1) := by decide +kernel
    rw [hcall] at heval
    obtain ⟨hlength, ho⟩ := pair_inj heval
    rw [hsame ho] at hlength
    cases hlength
  · rintro ⟨⟨rcv1, o1, h1, -⟩, hnext⟩
    obtain ⟨⟨rcv2, o2, h2, -⟩, -⟩ := hnext rcv1 o1 h1
    rw [run_cons_ok h1, run_cons_ok h2] at hstop
    cases hstop

end AndroidEmu.Telephony
