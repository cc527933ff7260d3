import AndroidEmu.Telephony.Receiver
import Mathlib.Data.List.Dedup

/-!
# Messages of several units

The records of an `SmsReceiver` are a function of what was delivered: there is one for each message
that has a part among the deliveries, in the order of the first ones, and its slots hold the parts
that were delivered.
-/

namespace AndroidEmu.Telephony

open CS Checked List Option Except

/-! ### The text of a record -/

/-- `sms_receiver_find_index_p`. -/
def smsReceiverFindIndexP (rcv : Receiver) (index : ℤ) : ℕ :=
  rcv.fragments.findIdx fun f => f.index = index

/-- `memcpy` to a place that is inside the buffer. -/
def copyTo (buffer : Bytes) (place : ℤ) (src : Bytes) : Checked Bytes :=
  if 0 ≤ place ∧ place + src.length ≤ buffer.length then
    .ok (buffer.take place.toNat ++ src ++ buffer.drop (place.toNat + src.length))
  else .error .bufferOverrun

/-- The locals of `sms_receiver_get_text_message`: the buffer of the caller, which may be NULL, the
place in it, the room left there, and the length of the text. -/
structure TextState where
  buffer : Option Bytes
  utf8 : ℤ
  utf8len : ℤ
  total : ℤ

/-- The value that `smspdu_get_text_message` returns. -/
def partLength (text : Option Bytes) : ℤ := if let some text := text then text.length else -1

@[simp] theorem partLength_some (text : Bytes) : partLength (some text) = text.length := rfl

/-- The end of `smspdu_get_text_message`: as much of the text is copied as there is room for. -/
def copyText (buffer : Bytes) (utf8 utf8len : ℤ) (text : Option Bytes) : Checked Bytes :=
  let len := min utf8len (partLength text)
  if 0 < len then copyTo buffer utf8 ((text.getD []).take len.toNat) else .ok buffer

theorem copyText_some (buffer : Bytes) (utf8 utf8len : ℤ) (text : Bytes) :
    copyText buffer utf8 utf8len (some text) = if 0 < min utf8len (text.length : ℤ) then
        copyTo buffer utf8 (text.take (min utf8len (text.length : ℤ)).toNat)
      else .ok buffer := rfl

/-- The text of one more unit, with a buffer or without. -/
def TextState.add (s : TextState) (text : Option Bytes) : Checked TextState :=
  match s.buffer with
  | some buffer =>
    if 0 < s.utf8len then do
      let buffer ← copyText buffer s.utf8 s.utf8len text
      return {
        buffer := some buffer
        utf8 := s.utf8 + partLength text
        utf8len := s.utf8len - partLength text
        total := s.total + partLength text }
    else .ok { s with total := s.total + partLength text }
  | none => .ok { s with total := s.total + partLength text }

/-- A round of the loop of `sms_receiver_get_text_message`. -/
def textRound (f : Fragment) (s : TextState) (nn : ℕ) : Checked TextState := do
  match ← readAt f.pdus nn with
  | none => .error .nullPointer
  | some pdu =>
    let text ← smspduGetTextMessage pdu
    s.add text

/-- The length of the text, and the buffer. -/
def smsReceiverGetTextMessage (rcv : Receiver) (index : ℤ) (utf8 : Option Bytes) (utf8len : ℤ) :
    Checked (ℤ × Option Bytes) :=
  match rcv.fragments[smsReceiverFindIndexP rcv index]? with
  | none => .ok (-1, utf8)
  | some f =>
    if f.count ≠ f.max then .ok (-1, utf8)
    else do
      let s ← (List.range f.count).foldlM (textRound f) ⟨utf8, 0, utf8len, 0⟩
      return (s.total, s.buffer)

/-- The locals after a part of the text: what there is room for is in the buffer. -/
structure TextState.Copied (buffer : Bytes) (text : Bytes) (s : TextState) : Prop where
  buffer_eq : s.buffer = some (text.take buffer.length ++ buffer.drop text.length)
  place : 0 < s.utf8len → s.utf8 = text.length ∧ s.utf8len = buffer.length - text.length
  full : s.utf8len ≤ 0 → buffer.length ≤ text.length
  total_eq : s.total = text.length

variable {buffer text t bytes : Bytes} {len i cur cur' k : ℕ}

theorem copyTo_append (htext : text.length ≤ buffer.length)
    (hlen : len = min (buffer.length - text.length) t.length) :
    copyTo (text ++ buffer.drop text.length) text.length (t.take len) =
      .ok ((text ++ t).take buffer.length ++ buffer.drop (text ++ t).length) := by
  have hlength : (t.take len).length = len := by
    rw [length_take]
    omega
  rw [copyTo, if_pos]
  · have hdrop : (text ++ buffer.drop text.length).drop (text.length + len) =
        buffer.drop (text.length + len) := by
      rw [drop_append, drop_eq_nil_of_le (by omega), nil_append, drop_drop]
      congr 1
      omega
    rw [hlength, Int.toNat_natCast, take_left, hdrop, take_append,
      take_of_length_le htext, length_append]
    by_cases hfits : t.length ≤ buffer.length - text.length
    · rw [show len = t.length by omega, take_length, take_of_length_le hfits]
    · rw [show len = buffer.length - text.length by omega, drop_eq_nil_of_le (by omega),
        drop_eq_nil_of_le (by omega)]
  · rw [hlength, length_append, length_drop]
    omega

variable {s : TextState}

theorem TextState.Copied.add (hs : s.Copied buffer text)
    (t : Bytes) : ∃ s', s.add (some t) = .ok s' ∧ s'.Copied buffer (text ++ t) := by
  have hbuffer := hs.buffer_eq
  have htotal := hs.total_eq
  have hlength : ((text ++ t).length : ℤ) = text.length + t.length := by
    rw [length_append]
    push_cast
    rfl
  rw [TextState.add, hbuffer]
  simp only [partLength_some]
  by_cases hroom : 0 < s.utf8len
  · obtain ⟨hutf8, hlen⟩ := hs.place hroom
    have hlt : text.length < buffer.length := by omega
    -- nothing was cut off so far
    rw [if_pos hroom, take_of_length_le hlt.le]
    have hcopy : copyText (text ++ buffer.drop text.length) s.utf8 s.utf8len (some t) =
        .ok ((text ++ t).take buffer.length ++ buffer.drop (text ++ t).length) := by
      have hmin : (min s.utf8len t.length).toNat = min (buffer.length - text.length) t.length := by
        omega
      rw [copyText_some]
      by_cases hpos : 0 < min s.utf8len t.length
      · rw [if_pos hpos, hutf8]
        exact copyTo_append hlt.le hmin
      · obtain rfl : t = [] := eq_nil_of_length_eq_zero (by omega)
        rw [if_neg hpos, append_nil, take_of_length_le hlt.le]
    rw [hcopy]
    refine ⟨_, rfl, rfl, fun hpos => ?_, fun hle => ?_, ?_⟩
    · dsimp only at hpos ⊢
      omega
    · dsimp only at hle
      omega
    · dsimp only
      omega
  · have hle := hs.full (by omega)
    rw [if_neg hroom]
    refine ⟨_, rfl, ?_, fun hpos => absurd hpos hroom, fun _ => ?_, ?_⟩
    · dsimp only
      rw [length_append, take_append_of_le_length hle,
        drop_eq_nil_of_le hle, drop_eq_nil_of_le (by omega)]
    · omega
    · dsimp only
      omega

theorem TextState.add_null (hs : s.buffer = none) (t : Bytes) :
    s.add (some t) = .ok { s with total := s.total + t.length } := by
  rw [TextState.add, hs]
  rfl

section Rounds

variable {f : Fragment} {texts : List Bytes}

/-- The slots hold units with these texts. -/
def Fragment.HasTexts (f : Fragment) (texts : List Bytes) : Prop :=
  ∀ (i : ℕ) (t : Bytes), texts[i]? = some t →
    ∃ pdu, f.pdus[i]? = some (some pdu) ∧ smspduGetTextMessage pdu = .ok (some t)

section

variable (hf : f.HasTexts texts)

include hf

theorem textRound_eq (ht : texts[i]? = some t)
    (s : TextState) : textRound f s i = s.add (some t) := by
  obtain ⟨pdu, hpdu, htext⟩ := hf i t ht
  rw [textRound, readAt_of_getElem? hpdu, ok_bind]
  dsimp only
  rw [htext, ok_bind]

theorem textRounds_spec (P : Bytes → TextState → Prop)
    (hadd : ∀ text t s, P text s → ∃ s', s.add (some t) = .ok s' ∧ P (text ++ t) s') (hs : P [] s) :
    ∃ s', (range texts.length).foldlM (textRound f) s = .ok s' ∧ P texts.flatten s' := by
  have hrounds : ∀ n ≤ texts.length,
      ∃ s', (range n).foldlM (textRound f) s = .ok s' ∧ P (texts.take n).flatten s' := by
    intro n
    induction n with
    | zero => exact fun _ => ⟨s, rfl, hs⟩
    | succ n ih =>
      intro hn
      obtain ⟨s1, hs1, hP⟩ := ih (by omega)
      have ht : texts[n]? = some texts[n] := getElem?_eq_getElem (by omega)
      obtain ⟨s2, hs2, hP2⟩ := hadd _ texts[n] s1 hP
      refine ⟨s2, ?_, ?_⟩
      · rw [range_succ, foldlM_append, hs1, ok_bind, foldlM_cons, textRound_eq hf ht, hs2]
        rfl
      · rw [take_add_one, ht, flatten_append]
        simpa using hP2
  obtain ⟨s', hs', hP⟩ := hrounds texts.length le_rfl
  exact ⟨s', hs', by rwa [take_length] at hP⟩

theorem textRounds_buffer (buffer : Bytes) :
    ∃ s', (range texts.length).foldlM (textRound f) ⟨some buffer, 0, buffer.length, 0⟩ =
        .ok s' ∧ s'.Copied buffer texts.flatten := by
  apply textRounds_spec hf (fun text s => s.Copied buffer text)
  · exact fun text t s hs => hs.add t
  · refine ⟨by simp, fun _ => ⟨rfl, by simp⟩, fun hle => ?_, rfl⟩
    dsimp only at hle
    omega

theorem textRounds_null :
    ∃ s', (range texts.length).foldlM (textRound f) ⟨none, 0, 0, 0⟩ = .ok s' ∧
      s'.buffer = none ∧ s'.total = texts.flatten.length := by
  apply textRounds_spec hf (fun text s => s.buffer = none ∧ s.total = text.length)
  · rintro text t s ⟨hbuffer, htotal⟩
    refine ⟨_, s.add_null hbuffer t, hbuffer, ?_⟩
    rw [htotal, length_append]
    push_cast
    rfl
  · exact ⟨rfl, rfl⟩

end

end Rounds

/-! ### Addresses that were read -/

theorem length_readMany (n : ℕ) :
    ∀ {cur : ℕ} {bs : Bytes}, readMany bytes cur n = .ok bs → bs.length = n := by
  induction n with
  | zero =>
    rintro cur bs h
    obtain rfl := ok.inj h
    rfl
  | succ n ih =>
    intro cur bs h
    obtain ⟨b, -, h⟩ := bind_eq_ok.mp h
    obtain ⟨bs', hbs', h⟩ := bind_eq_ok.mp h
    obtain rfl := ok.inj h
    rw [length_cons, ih hbs']

theorem smsGetAddress_length {a : AddressRead}
    (h : smsGetAddress bytes cur = .ok (some (a, cur'))) : a.data.length = (a.len + 1) / 2 := by
  rw [smsGetAddress] at h
  split_ifs at h with hlt
  · obtain ⟨dlen, -, h⟩ := bind_eq_ok.mp h
    dsimp only at h
    split_ifs at h
    · obtain ⟨rfl, -⟩ := Prod.mk.inj (some.inj (ok.inj h))
      simp
    · cases ok.inj h
    · obtain ⟨toa, -, h⟩ := bind_eq_ok.mp h
      cases ok.inj h
    · obtain ⟨toa, -, h⟩ := bind_eq_ok.mp h
      obtain ⟨bs, hbs, h⟩ := bind_eq_ok.mp h
      obtain ⟨rfl, -⟩ := Prod.mk.inj (some.inj (ok.inj h))
      exact length_readMany _ hbs
  · cases ok.inj h

theorem Reads.length_data {pdu : SmsPdu} {h : PartHeader} (hr : Reads pdu h) :
    h.address.data.length = (h.address.len + 1) / 2 := by
  obtain ⟨r, -, haddress⟩ := bind_eq_ok.mp hr.address
  obtain _ | ⟨mtiByte, data⟩ := r
  · cases haddress
  dsimp only at haddress
  cases htype : pduType mtiByte with
  | submit =>
    rw [htype] at haddress
    obtain ⟨a, ha, hpure⟩ := bind_eq_ok.mp haddress
    obtain ⟨⟨address, cur⟩, rfl, hfst⟩ := map_eq_some_iff.mp (ok.inj hpure)
    rw [← hfst]
    exact smsGetAddress_length ha
  | _ => rw [htype] at haddress; cases haddress

theorem smsAddressEq_iff {a b : AddressRead} (ha : a.data.length = (a.len + 1) / 2)
    (hb : b.data.length = (b.len + 1) / 2) : smsAddressEq a b = true ↔ a = b := by
  constructor
  · intro h
    obtain ⟨htoa, hlen, hdata⟩ := of_decide_eq_true h
    rw [take_of_length_le ha.le, take_of_length_le (by rw [hb, hlen])] at hdata
    cases a
    cases b
    dsimp only at htoa hlen hdata
    rw [htoa, hlen, hdata]
  · rintro rfl
    exact smsAddressEq_refl a

/-! ### Messages and deliveries -/

/-- A message: units that agree on their address, their reference and the number of parts, in the
order of the parts, each with a text. -/
structure Message where
  address : AddressRead
  ref : ℤ
  parts : List SmsPdu
  texts : List Bytes
  reads : ∀ i part, parts[i]? = some part → Reads part ⟨address, ref, parts.length, (i : ℕ)⟩
  texts_eq : parts.map smspduGetTextMessage = texts.map fun text => .ok (some text)

variable {ι : Type} {msg : ι → Message}

abbrev Delivery (msg : ι → Message) := Σ a, Fin (msg a).parts.length

def Delivery.pdu (d : Delivery msg) : SmsPdu := (msg d.1).parts.get d.2

def Delivery.header (d : Delivery msg) : PartHeader :=
  ⟨(msg d.1).address, (msg d.1).ref, (msg d.1).parts.length, (d.2 : ℕ)⟩

theorem Delivery.reads (d : Delivery msg) : Reads d.pdu d.header :=
  (msg d.1).reads d.2 _ (getElem?_eq_getElem d.2.isLt)

open Delivery

theorem Delivery.proper (d : Delivery msg) : d.header.Proper := by
  exact ⟨by simp [header], by simp [header]⟩

section Records

variable [DecidableEq ι]

def slots (ds : List (Delivery msg)) (a : ι) : List (Option SmsPdu) :=
  List.ofFn fun i : Fin (msg a).parts.length =>
    if (⟨a, i⟩ : Delivery msg) ∈ ds then some ((msg a).parts.get i) else none

def recordOf (ds : List (Delivery msg)) (index : ℤ) (a : ι) : Fragment where
  address := (msg a).address
  ref := (msg a).ref.toNat
  max := (msg a).parts.length
  count := (slots ds a).countP Option.isSome
  index := index
  pdus := slots ds a

def Started (ds : List (Delivery msg)) (a : ι) : Prop := a ∈ ds.map Sigma.fst

variable {ds : List (Delivery msg)} {d : Delivery msg} {a b : ι}

theorem length_slots : (slots ds a).length = (msg a).parts.length := length_ofFn

theorem getElem?_slots (ds : List (Delivery msg)) (i : Fin (msg a).parts.length) :
    (slots ds a)[(i : ℕ)]? =
      some (if (⟨a, i⟩ : Delivery msg) ∈ ds then some ((msg a).parts.get i) else none) := by
  rw [slots, List.getElem?_ofFn, dif_pos i.isLt]

theorem slots_append_self : slots (ds ++ [d]) d.1 = (slots ds d.1).set d.2 (some d.pdu) := by
  obtain ⟨a, i⟩ := d
  apply ext_getElem?
  intro k
  by_cases hk : k < (msg a).parts.length
  · have hslot := getElem?_slots (ds ++ [⟨a, i⟩]) (⟨k, hk⟩ : Fin (msg a).parts.length)
    have hslot' := getElem?_slots ds (⟨k, hk⟩ : Fin (msg a).parts.length)
    rw [hslot]
    by_cases hki : (i : ℕ) = k
    · subst hki
      rw [getElem?_set_self (by rw [length_slots]; exact hk), if_pos (by simp)]
      rfl
    · have hne : (⟨k, hk⟩ : Fin (msg a).parts.length) ≠ i := fun h => hki (by rw [← h])
      rw [getElem?_set_ne hki, hslot']
      simp [hne]
  · rw [getElem?_eq_none, getElem?_eq_none]
    · rw [length_set, length_slots]
      exact not_lt.mp hk
    · rw [length_slots]
      exact not_lt.mp hk

theorem slots_append_of_ne (hab : b ≠ d.1) : slots (ds ++ [d]) b = slots ds b := by
  unfold slots
  congr 1
  funext i
  have hne : (⟨b, i⟩ : Delivery msg) ≠ d := fun h => hab (by rw [← h])
  simp [hne]

theorem slots_of_not_started (ha : ¬ Started ds a) :
    slots ds a = replicate (msg a).parts.length none := by
  refine eq_replicate_iff.mpr ⟨length_slots, fun slot hslot => ?_⟩
  obtain ⟨i, rfl⟩ := mem_ofFn.mp hslot
  exact if_neg fun hmem => ha (mem_map_of_mem hmem)

theorem recordOf_append_of_ne (hab : b ≠ d.1) (index : ℤ) :
    recordOf (ds ++ [d]) index b = recordOf ds index b := by
  simp only [recordOf, slots_append_of_ne hab]

theorem recordOf_complete_iff {index : ℤ} : (recordOf ds index a).Complete ↔
      ∀ i : Fin (msg a).parts.length, (⟨a, i⟩ : Delivery msg) ∈ ds := by
  constructor
  · intro hcomplete i
    obtain ⟨pdu, hpdu⟩ := hcomplete i i.isLt
    by_contra hmem
    rw [recordOf, getElem?_slots, if_neg hmem] at hpdu
    cases hpdu
  · intro hall i hi
    exact ⟨_, (getElem?_slots ds ⟨i, hi⟩).trans (by rw [if_pos (hall ⟨i, hi⟩)])⟩

open Fragment

theorem fresh_eq_recordOf (hnew : ¬ Started ds d.1) (index : ℤ) :
    fresh d.header.address d.header.ref d.header.max index = recordOf ds index d.1 := by
  have href := d.reads.ref_bounds
  have hmax := d.reads.max_bounds
  simp only [header] at href hmax
  simp only [fresh, recordOf, header, slots_of_not_started hnew,
    Int.toNat_natCast, countP_replicate]
  rw [wrapNat_of_lt (by omega), wrapNat_of_lt (by omega)]
  rfl

/-- No two messages have the same address and reference. -/
def Distinct (msg : ι → Message) : Prop :=
  ∀ a b, (msg a).address = (msg b).address → (msg a).ref = (msg b).ref → a = b

theorem isFor_recordOf (hdistinct : Distinct msg) (hb : Started ds b) (index : ℤ) :
    isFor d.header.address d.header.ref (recordOf ds index b) = true ↔ b = d.1 := by
  obtain ⟨⟨b, i⟩, -, rfl⟩ := mem_map.mp hb
  have hread := reads ⟨b, i⟩
  have haddress : smsAddressEq (msg b).address (msg d.1).address = true ↔
      (msg b).address = (msg d.1).address := smsAddressEq_iff hread.length_data d.reads.length_data
  have href : ((msg b).ref.toNat : ℤ) = (msg b).ref := Int.toNat_of_nonneg hread.ref_bounds.1
  simp only [isFor, recordOf, header, decide_eq_true_eq, haddress, href]
  exact ⟨fun h => hdistinct _ _ h.2 h.1, fun h => by rw [h]; exact ⟨rfl, rfl⟩⟩

/-- The receiver after some deliveries: it has a record for each message with a part among them,
in the order of the first ones. -/
structure Tracks (ds : List (Delivery msg)) (order : List ι) (rcv : Receiver) : Prop where
  sound : rcv.Sound
  nodup : order.Nodup
  mem_order : ∀ a, a ∈ order ↔ Started ds a
  last_eq : rcv.last = order.length
  fragments_eq : ∀ k : ℕ, rcv.fragments[k]? = order[k]?.map (recordOf ds (k + 1))

namespace Tracks

variable {order : List ι} {rcv : Receiver}

theorem nil : Tracks ([] : List (Delivery msg)) [] smsReceiverCreate where
  sound := smsReceiverCreate_sound
  nodup := nodup_nil
  mem_order := by simp [Started]
  last_eq := rfl
  fragments_eq := by simp [smsReceiverCreate]

section

variable (ht : Tracks ds order rcv)

include ht

theorem length_fragments : rcv.fragments.length = order.length := by
  apply le_antisymm
  · rw [← getElem?_eq_none_iff, ht.fragments_eq, getElem?_eq_none le_rfl]
    rfl
  · have hnone := ht.fragments_eq rcv.fragments.length
    rw [getElem?_eq_none le_rfl] at hnone
    exact getElem?_eq_none_iff.mp (map_eq_none_iff.mp hnone.symm)

theorem record_eq (hdistinct : Distinct msg) (d : Delivery msg) :
    (¬ Started ds d.1 ∧ rcv.record d.header = none) ∨
      ∃ k : ℕ, smsReceiverFindP rcv d.header.address d.header.ref = k ∧ order[k]? = some d.1 ∧
        rcv.record d.header = some (recordOf ds (k + 1) d.1) := by
  have hfound := ht.fragments_eq (smsReceiverFindP rcv d.header.address d.header.ref)
  cases horder : order[smsReceiverFindP rcv d.header.address d.header.ref]? with
  | none =>
    rw [horder] at hfound
    refine .inl ⟨fun hstarted => ?_, hfound⟩
    -- the record of the message would have been found
    obtain ⟨k, hk⟩ := mem_iff_getElem?.mp ((ht.mem_order d.1).mpr hstarted)
    have hfragment := ht.fragments_eq k
    rw [hk] at hfragment
    have hfor := (isFor_recordOf (d := d) hdistinct hstarted (k + 1)).mpr rfl
    have hlt := findIdx_lt_length_of_exists ⟨_, mem_of_getElem? hfragment, hfor⟩
    exact absurd hlt (not_lt.mpr (getElem?_eq_none_iff.mp hfound))
  | some b =>
    rw [horder] at hfound
    have hb : Started ds b := (ht.mem_order b).mp (mem_of_getElem? horder)
    have hfor : isFor d.header.address d.header.ref (recordOf ds _ b) = true :=
      findIdx_of_getElem?_eq_some hfound
    obtain rfl := (isFor_recordOf hdistinct hb _).mp hfor
    exact .inr ⟨_, rfl, horder, hfound⟩

theorem deliver (hdistinct : Distinct msg) (d : Delivery msg)
    (hroom : ¬ Started ds d.1 → order.length + 1 < 2 ^ 31) :
    ∃ order' rcv' k, smsReceiverAddSubmitPdu rcv d.pdu =
        .ok (rcv', (recordOf (ds ++ [d]) ((k : ℕ) + 1) d.1).reply) ∧
      order'[k]? = some d.1 ∧ Tracks (ds ++ [d]) order' rcv' := by
  have hslot : d.header.cur < (recordOf ds 0 d.1).max := d.proper.2
  have hmem : ∀ a, Started (ds ++ [d]) a ↔ Started ds a ∨ a = d.1 := by simp [Started]
  have hput : ∀ index : ℤ, ({ recordOf ds index d.1 with
      pdus := (recordOf ds index d.1).pdus.set d.header.cur.toNat (some d.pdu)
      count := ((recordOf ds index d.1).pdus.set d.header.cur.toNat (some d.pdu)).countP
        Option.isSome } : Fragment) = recordOf (ds ++ [d]) index d.1 := by
    intro index
    simp only [recordOf, slots_append_self, header, Int.toNat_natCast]
  obtain ⟨hnew, hrecord⟩ | ⟨k, hfind, horder, hrecord⟩ := ht.record_eq hdistinct d
  · -- the first part of its message
    have hlast := ht.last_eq
    have hlength := ht.length_fragments
    have hcall := smsReceiverAddSubmitPdu_absent d.reads hrecord (by omega)
    obtain ⟨hgrown, hfind, hrecord'⟩ := ht.sound.grown d.reads hrecord
    rw [fresh_eq_recordOf hnew] at hrecord' hcall
    obtain ⟨rcv', f', hkeep, hsound, hlast', hfragments, -, hf'⟩ :=
      hgrown.keep hrecord' d.proper hslot d.pdu
    rw [hput, hlast] at hf'
    subst hf'
    have hstarted : ∀ a, a ∈ order ++ [d.1] ↔ Started (ds ++ [d]) a := by
      intro a
      rw [hmem, mem_append, mem_singleton, ht.mem_order]
    refine ⟨order ++ [d.1], rcv', order.length, ?_, getElem?_concat_length, hsound, ?_,
      hstarted, ?_, fun j => ?_⟩
    · rw [hcall, if_pos (by rw [hlast]; exact_mod_cast hroom hnew), if_pos d.proper, ← hfind, hkeep]
    · rw [nodup_append_comm]
      exact nodup_cons.mpr ⟨fun h => hnew ((ht.mem_order _).mp h), ht.nodup⟩
    · rw [hlast', length_append]
      simp [Receiver.grown, hlast]
    · have hset :
          rcv'.fragments = rcv.fragments ++ [recordOf (ds ++ [d]) (order.length + 1) d.1] := by
        rw [hfragments, hfind, Receiver.grown, set_append_right _ _ le_rfl, Nat.sub_self]
        rfl
      rw [hset]
      obtain hj | rfl | hj := lt_trichotomy j order.length
      · have hne : order[j] ≠ d.1 := fun h => hnew ((ht.mem_order _).mp (h ▸ getElem_mem hj))
        rw [getElem?_append_left (by omega), getElem?_append_left hj, ht.fragments_eq,
          getElem?_eq_getElem hj, map_some, map_some, recordOf_append_of_ne hne]
      · rw [getElem?_concat_length, ← hlength, getElem?_concat_length, map_some]
      · rw [getElem?_eq_none, getElem?_eq_none, map_none]
        · rw [length_append, length_singleton]
          omega
        · rw [length_append, length_singleton]
          omega
  · have hcall := smsReceiverAddSubmitPdu_found d.reads hrecord
    obtain ⟨rcv', f', hkeep, hsound, hlast, hfragments, -, hf'⟩ :=
      ht.sound.keep hrecord d.proper hslot d.pdu
    rw [hput] at hf'
    subst hf'
    refine ⟨order, rcv', k, ?_, horder, hsound, ht.nodup, fun a => ?_, ?_, fun j => ?_⟩
    · rw [hcall, if_pos d.proper, hkeep]
    · rw [hmem, ht.mem_order]
      refine ⟨.inl, ?_⟩
      rintro (ha | rfl)
      · exact ha
      · exact (ht.mem_order _).mp (mem_of_getElem? horder)
    · rw [hlast, ht.last_eq]
    · rw [hfragments, hfind]
      by_cases hjk : k = j
      · subst hjk
        have hlt : k < rcv.fragments.length := by
          rw [ht.length_fragments]
          exact (List.getElem?_eq_some_iff.mp horder).1
        rw [getElem?_set_self hlt, horder, map_some]
      rw [getElem?_set_ne hjk, ht.fragments_eq]
      cases hj : order[j]? with
      | none => rfl
      | some b =>
        have hne : b ≠ d.1 := by
          rintro rfl
          exact hjk ((getElem?_inj (List.getElem?_eq_some_iff.mp horder).1 ht.nodup).mp
            (horder.trans hj.symm))
        rw [map_some, map_some, recordOf_append_of_ne hne]

theorem getTextMessage (hk : order[k]? = some a)
    (hall : ∀ i, (⟨a, i⟩ : Delivery msg) ∈ ds) : let text := (msg a).texts.flatten
    smsReceiverGetTextMessage rcv (k + 1) none 0 = .ok (text.length, none) ∧
      ∀ buffer : Bytes, smsReceiverGetTextMessage rcv (k + 1) (some buffer) buffer.length =
        .ok (text.length, some (text.take buffer.length ++ buffer.drop text.length)) := by
  have hfragment := ht.fragments_eq k
  rw [hk, map_some] at hfragment
  have hlt := (List.getElem?_eq_some_iff.mp hfragment).1
  -- the index of a record is its place
  have hfind : smsReceiverFindIndexP rcv (k + 1) = k := by
    refine (findIdx_eq hlt).mpr ⟨?_, fun j hj => ?_⟩
    · rw [(List.getElem?_eq_some_iff.mp hfragment).2]
      simp [recordOf]
    · have hj' := ht.fragments_eq j
      rw [getElem?_eq_getElem (by omega), getElem?_eq_getElem
        (by rw [← ht.length_fragments]; omega), map_some] at hj'
      rw [some.inj hj']
      simp [recordOf]
      omega
  have hsound := ht.sound.fragments _ (mem_of_getElem? hfragment)
  have hcount : (recordOf ds (k + 1) a).count = (recordOf ds (k + 1) a).max :=
    le_antisymm hsound.count_le (hsound.complete_iff.mp (recordOf_complete_iff.mpr hall))
  have hlength : (msg a).texts.length = (recordOf ds (k + 1) a).count := by
    have hlength := congrArg length (msg a).texts_eq
    rw [length_map, length_map] at hlength
    rw [hcount, ← hlength]
    rfl
  have htexts : (recordOf ds (k + 1) a).HasTexts (msg a).texts := by
    intro i t hi
    have htext : ((msg a).parts.map smspduGetTextMessage)[i]? = some (.ok (some t)) := by
      rw [(msg a).texts_eq, getElem?_map, hi]
      rfl
    rw [getElem?_map] at htext
    obtain ⟨pdu, hpdu, htext⟩ := map_eq_some_iff.mp htext
    obtain ⟨hi', rfl⟩ := List.getElem?_eq_some_iff.mp hpdu
    refine ⟨_, (getElem?_slots ds ⟨i, hi'⟩).trans ?_, htext⟩
    rw [if_pos (hall ⟨i, hi'⟩)]
    rfl
  obtain ⟨s0, hs0, hnull, htotal0⟩ := textRounds_null htexts
  refine ⟨?_, fun buffer => ?_⟩
  · rw [smsReceiverGetTextMessage, hfind, hfragment]
    simp only [hcount, ne_eq, not_true_eq_false, if_false]
    rw [← hcount, ← hlength, hs0, ok_bind, hnull, htotal0]
    rfl
  · obtain ⟨s, hs, hcopied⟩ := textRounds_buffer htexts buffer
    rw [smsReceiverGetTextMessage, hfind, hfragment]
    simp only [hcount, ne_eq, not_true_eq_false, if_false]
    rw [← hcount, ← hlength, hs, ok_bind, hcopied.buffer_eq, hcopied.total_eq]
    rfl

end

end Tracks

/-- The number of messages that have a part among the deliveries. -/
def startedCount (ds : List (Delivery msg)) : ℕ := (ds.map Sigma.fst).toFinset.card

theorem length_eq_startedCount {order : List ι} (hnodup : order.Nodup)
    (hmem : ∀ a, a ∈ order ↔ Started ds a) : order.length = startedCount ds := by
  rw [← toFinset_card_of_nodup hnodup]
  congr 1
  ext a
  rw [List.mem_toFinset, List.mem_toFinset, hmem]
  rfl

theorem startedCount_le_append : startedCount ds ≤ startedCount (ds ++ [d]) := by
  apply Finset.card_le_card
  intro a ha
  rw [List.mem_toFinset] at ha ⊢
  rw [map_append]
  exact mem_append_left _ ha

theorem Tracks.room {order : List ι} {rcv : Receiver} (ht : Tracks ds order rcv)
    (hfew : startedCount (ds ++ [d]) < 2 ^ 31) (hnew : ¬ Started ds d.1) :
    order.length + 1 < 2 ^ 31 := by
  have hnodup : (d.1 :: order).Nodup :=
    nodup_cons.mpr ⟨fun h => hnew ((ht.mem_order _).mp h), ht.nodup⟩
  have hmem : ∀ a, a ∈ d.1 :: order ↔ Started (ds ++ [d]) a := by
    intro a
    rw [mem_cons, ht.mem_order]
    simp [Started, or_comm]
  have hlength := length_eq_startedCount hnodup hmem
  rw [length_cons] at hlength
  omega

theorem tracks_run (hdistinct : Distinct msg) (ds : List (Delivery msg))
    (hfew : startedCount ds < 2 ^ 31) :
    ∃ order rcv, (run smsReceiverAddSubmitPdu smsReceiverCreate (ds.map Delivery.pdu)).2 = .ok rcv ∧
      Tracks ds order rcv := by
  induction ds using reverseRecOn with
  | nil => exact ⟨[], smsReceiverCreate, rfl, .nil⟩
  | append_singleton ds d ih =>
    obtain ⟨order, rcv, hrun, ht⟩ := ih (startedCount_le_append.trans_lt hfew)
    obtain ⟨order', rcv', k, hcall, -, ht'⟩ := ht.deliver hdistinct d (ht.room hfew)
    refine ⟨order', rcv', ?_, ht'⟩
    rw [map_append, run_append _ _ hrun]
    exact congrArg Prod.snd (run_cons_ok hcall [])

/-- Parts of fewer than `2 ^ 31` messages, whose addresses and references are distinct, are
delivered in any order and any number of times. Each call returns a positive index if all parts of
its message are there by then, and 0 else; and the text of the index is the one of the parts in
their order, with a buffer of any length or without. -/
theorem deliveries_reassembled (msg : ι → Message) (hdistinct : Distinct msg)
    (ds : List (Delivery msg)) (d : Delivery msg) (hfew : startedCount (ds ++ [d]) < 2 ^ 31) :
    ∃ rcv rcv' o, (run smsReceiverAddSubmitPdu smsReceiverCreate (ds.map Delivery.pdu)).2 =
      .ok rcv ∧
      smsReceiverAddSubmitPdu rcv d.pdu = .ok (rcv', o) ∧ 0 ≤ o ∧
      (0 < o ↔ ∀ i, (⟨d.1, i⟩ : Delivery msg) ∈ ds ++ [d]) ∧
      (0 < o → let text := (msg d.1).texts.flatten
        smsReceiverGetTextMessage rcv' o none 0 = .ok (text.length, none) ∧
          ∀ buffer : Bytes, smsReceiverGetTextMessage rcv' o (some buffer) buffer.length =
            .ok (text.length, some (text.take buffer.length ++ buffer.drop text.length))) := by
  obtain ⟨order, rcv, hrun, ht⟩ := tracks_run hdistinct ds (startedCount_le_append.trans_lt hfew)
  obtain ⟨order', rcv', k, hcall, hk, ht'⟩ := ht.deliver hdistinct d (ht.room hfew)
  have hfragment := ht'.fragments_eq k
  rw [hk] at hfragment
  have hsound := ht'.sound.fragments _ (mem_of_getElem? hfragment)
  refine ⟨rcv, rcv', _, hrun, hcall, ?_⟩
  by_cases hall : ∀ i, (⟨d.1, i⟩ : Delivery msg) ∈ ds ++ [d]
  · rw [hsound.reply_eq.1 (recordOf_complete_iff.mpr hall)]
    exact ⟨hsound.index_pos.le, iff_of_true hsound.index_pos hall,
      fun _ => ht'.getTextMessage hk hall⟩
  · rw [hsound.reply_eq.2 fun hcomplete => hall (recordOf_complete_iff.mp hcomplete)]
    exact ⟨le_rfl, iff_of_false (lt_irrefl 0) hall, fun h => absurd h (lt_irrefl 0)⟩

end Records

/-- The text `ab` in two parts. -/
def smallMessage : Message where
  address := ⟨1, 0x81, [0xf1]⟩
  ref := 7
  parts := [smallUnit 2 1 0x61, smallUnit 2 2 0x62]
  texts := [[0x61], [0x62]]
  reads := by
    intro i part hpart
    match i with
    | 0 =>
      obtain rfl := Option.some.inj hpart
      exact ⟨by decide +kernel, by decide +kernel, by decide +kernel, by decide +kernel⟩
    | 1 =>
      obtain rfl := Option.some.inj hpart
      exact ⟨by decide +kernel, by decide +kernel, by decide +kernel, by decide +kernel⟩
    | i + 2 => simp at hpart
  texts_eq := by decide +kernel

/-- The second part comes first. -/
theorem deliveries_reassembled_second_first :
    ∃ rcv rcv' o, (run smsReceiverAddSubmitPdu smsReceiverCreate [smallUnit 2 2 0x62]).2 = .ok rcv ∧
      smsReceiverAddSubmitPdu rcv (smallUnit 2 1 0x61) = .ok (rcv', o) ∧ 0 < o ∧
      smsReceiverGetTextMessage rcv' o (some [0, 0, 0]) 3 = .ok (2, some [0x61, 0x62, 0]) := by
  obtain ⟨rcv, rcv', o, hrun, hcall, -, hiff, htext⟩ :=
    deliveries_reassembled (fun _ : Unit => smallMessage) (fun _ _ _ _ => rfl)
      [⟨(), ⟨1, by decide⟩⟩] ⟨(), ⟨0, by decide⟩⟩ (by decide)
  have hpos := hiff.mpr (by decide)
  exact ⟨rcv, rcv', o, hrun, hcall, hpos, (htext hpos).2 [0, 0, 0]⟩

/-- The last part of its message that was missing is delivered. -/
def LastMissing (ds : List (Delivery msg)) (d : Delivery msg) : Prop :=
  d ∉ ds ∧ ∀ i, (⟨d.1, i⟩ : Delivery msg) ∈ ds ++ [d]

/-- A part that comes again after its message was complete: no part is missing, and the index of
the message is returned again. -/
theorem duplicate_is_reported_again : let ds : List (Delivery fun _ : Unit => smallMessage) :=
      [⟨(), ⟨0, by decide⟩⟩, ⟨(), ⟨1, by decide⟩⟩]
    let d : Delivery fun _ : Unit => smallMessage := ⟨(), ⟨1, by decide⟩⟩
    ∃ rcv rcv' o, (run smsReceiverAddSubmitPdu smsReceiverCreate (ds.map pdu)).2 = .ok rcv ∧
      smsReceiverAddSubmitPdu rcv d.pdu = .ok (rcv', o) ∧ ¬ (0 < o ↔ LastMissing ds d) := by
  refine ⟨_, _, 1, rfl, rfl, fun h => ?_⟩
  obtain ⟨hmissing, -⟩ := h.mp (by decide)
  exact hmissing (by simp)

end AndroidEmu.Telephony
