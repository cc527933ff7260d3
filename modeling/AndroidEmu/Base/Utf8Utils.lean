import AndroidEmu.CS.ByteStream
import AndroidEmu.CS.Memory
import Mathlib.Data.FinEnum

/-!
# UTF-8 text

`android/base/misc/Utf8Utils.cpp`, with up to five continuation bytes. Pointers are the bytes of the
memory from there on. `utf8IsValid` compares the continuation bytes that a lead byte announces with
all bytes that are left, the lead byte included.
-/

namespace AndroidEmu.Base

open CS List

/-- The number of continuation bytes that a lead byte announces. -/
def continuations (ch : UInt8) : Option ℕ :=
  if ch &&& 0x80 = 0 then some 0
  else if ch &&& 0xe0 = 0xc0 then some 1
  else if ch &&& 0xf0 = 0xe0 then some 2
  else if ch &&& 0xf8 = 0xf0 then some 3
  else if ch &&& 0xfc = 0xf8 then some 4
  else if ch &&& 0xfe = 0xfc then some 5
  else none

/-- A byte of the form `10xxxxxx`. -/
def IsContinuation (b : UInt8) : Prop := b &&& 0xc0 = 0x80

instance : DecidablePred IsContinuation := fun b => inferInstanceAs (Decidable (b &&& 0xc0 = 0x80))

def continues : ℕ → Bytes → Checked Bool
  | 0, _ => .ok true
  | _ + 1, [] => .error .outOfBounds
  | n + 1, b :: text => if IsContinuation b then continues n text else .ok false

/-- The loop of `utf8IsValid`, with the number of bytes from `text` to `end`. A pointer behind `end`
ends it as well. -/
def utf8IsValidLoop : ℕ → Bytes → ℕ → Checked Bool
  | 0, _, _ => .error .endless
  | rounds + 1, text, left =>
    if left = 0 then .ok true
    else match text with
      | [] => .error .outOfBounds
      | ch :: text =>
        match continuations ch with
        | none => .ok false
        | some n =>
          if left < n then .ok false
          else do
            let all ← continues n text
            if all then utf8IsValidLoop rounds (text.drop n) (left - (n + 1)) else return false

def utf8IsValid (text : Bytes) (textLen : ℕ) : Checked Bool :=
  utf8IsValidLoop (textLen + 1) text textLen

def decodeLoop : ℕ → Bytes → UInt32 → Checked UInt32
  | 0, _, value => .ok value
  | _ + 1, [], _ => .error .outOfBounds
  | n + 1, b :: text, value => decodeLoop n text (value <<< 6 ||| (b &&& 0x3f).toUInt32)

/-- The result, and the code point where one is stored. -/
def utf8Decode (text : Bytes) (textLen : ℕ) : Checked (ℤ × Option UInt32) :=
  if textLen = 0 then .ok (0, some 0)
  else match text with
    | [] => .error .outOfBounds
    | ch :: text =>
      match continuations ch with
      | none => .ok (-1, none)
      | some n =>
        if textLen < n + 1 then .ok (-1, none)
        else do
          let lead := if n = 0 then ch else ch &&& (0x7f >>> UInt8.ofNat n)
          let value ← decodeLoop n text lead.toUInt32
          return ((n + 1 : ℕ), some value)

/-! ### Sequences -/

/-- The byte leads `k` continuation bytes: `0xxxxxxx` for none, and else as many ones as there are
bytes in the sequence, and a zero. -/
def Leads (ch : UInt8) (k : ℕ) : Prop :=
  k = 0 ∧ ch < 0x80 ∨ 0 < k ∧ k ≤ 5 ∧ 256 - 2 ^ (7 - k) ≤ ch.toNat ∧ ch.toNat < 256 - 2 ^ (6 - k)

instance (ch : UInt8) (k : ℕ) : Decidable (Leads ch k) := inferInstanceAs (Decidable (_ ∨ _))

/-- The bytes are complete sequences, one after the other, followed by one of which the last
`missing` bytes are missing, or by nothing. -/
inductive Sequences : ℕ → Bytes → Prop
  | nil : Sequences 0 []
  | cut {missing : ℕ} {ch : UInt8} {tail : Bytes} (lead : Leads ch (tail.length + (missing + 1)))
      (continuation : ∀ b ∈ tail, IsContinuation b) : Sequences (missing + 1) (ch :: tail)
  | cons {missing : ℕ} {ch : UInt8} {tail rest : Bytes} (lead : Leads ch tail.length)
      (continuation : ∀ b ∈ tail, IsContinuation b) (more : Sequences missing rest) :
      Sequences missing (ch :: (tail ++ rest))

/-- `utf8IsValid` tells from the text alone whether it consists of complete sequences. -/
def ValidatesRight (text : Bytes) : Prop :=
  ∀ behind, ∃ valid, utf8IsValid (text ++ behind) text.length = .ok valid ∧
    (valid = true ↔ Sequences 0 text)

/-- If `utf8Decode` returns a positive length, a complete sequence of that length starts there. -/
def DecodesRight (text : Bytes) : Prop :=
  ∀ behind r value, utf8Decode (text ++ behind) text.length = .ok (r, value) → 0 < r →
    ∃ ch tail rest, text = ch :: (tail ++ rest) ∧ r = (tail.length + 1 : ℕ) ∧
      Leads ch tail.length ∧ ∀ b ∈ tail, IsContinuation b

/-- The first sequence, if the text has room for it, has continuation bytes where they are due. -/
def StartsUnbroken (text : Bytes) : Prop :=
  ∀ ch rest n, text = ch :: rest → Leads ch n → n ≤ rest.length →
    ∀ b ∈ rest.take n, IsContinuation b

theorem continuations_eq_some_iff {ch : UInt8} {k : ℕ} :
    continuations ch = some k ↔ Leads ch k := by
  have hsmall : ∀ n < 256, ∀ k < 6,
      continuations (UInt8.ofNat n) = some k ↔ Leads (UInt8.ofNat n) k := by decide +kernel
  have hrange : ∀ n < 256, ∀ k ∈ continuations (UInt8.ofNat n), k < 6 := by decide +kernel
  have hch := ch.toNat_lt
  rw [← UInt8.ofNat_toNat (x := ch)]
  by_cases hk : k < 6
  · exact hsmall _ hch k hk
  · refine iff_of_false (fun h => hk (hrange _ hch k h)) ?_
    unfold Leads
    omega

theorem Leads.eq {ch : UInt8} {k k' : ℕ} (h : Leads ch k) (h' : Leads ch k') : k = k' := by
  rw [← continuations_eq_some_iff] at h h'
  exact Option.some.inj (h.symm.trans h')

variable {missing n : ℕ} {ch : UInt8} {bs : Bytes}

/-- The first sequence of a text is complete, or it is the one that is cut. -/
theorem sequences_cons_iff (hlead : Leads ch n) : Sequences missing (ch :: bs) ↔
    n ≤ bs.length ∧ (∀ b ∈ bs.take n, IsContinuation b) ∧ Sequences missing (bs.drop n) ∨
      0 < missing ∧ n = bs.length + missing ∧ ∀ b ∈ bs, IsContinuation b := by
  constructor
  · intro h
    cases h with
    | cut hlead' hall => exact .inr ⟨Nat.succ_pos _, hlead.eq hlead', hall⟩
    | @cons _ _ tail rest hlead' hall more =>
      obtain rfl := hlead.eq hlead'
      rw [take_left, drop_left, length_append]
      exact .inl ⟨Nat.le_add_right _ _, hall, more⟩
  · rintro (⟨hle, hall, hmore⟩ | ⟨hpos, rfl, hall⟩)
    · rw [← take_append_drop n bs]
      refine .cons ?_ hall hmore
      rwa [length_take_of_le hle]
    · obtain ⟨m, rfl⟩ : ∃ m, missing = m + 1 := ⟨missing - 1, by omega⟩
      exact .cut hlead hall

/-- The inner loop, where all bytes it asks for are there. -/
theorem continues_eq (hn : n ≤ bs.length) (behind : Bytes) :
    continues n (bs ++ behind) = .ok (decide (∀ b ∈ bs.take n, IsContinuation b)) := by
  induction n generalizing bs with
  | zero => simp [continues]
  | succ n ih =>
    cases bs with
    | nil => simp at hn
    | cons b bs =>
      rw [cons_append, continues, ih (by simpa using hn)]
      by_cases hb : IsContinuation b <;> simp [hb]

/-- Where one byte is missing, the one behind the text is taken. -/
theorem continues_succ_length (bs behind : Bytes) : continues (bs.length + 1) (bs ++ behind) =
      if ∀ b ∈ bs, IsContinuation b then continues 1 behind else .ok false := by
  induction bs with
  | nil => simp
  | cons b bs ih =>
    rw [length_cons, cons_append, continues, ih]
    by_cases hb : IsContinuation b <;> simp [hb]

section Turns

variable {rounds left : ℕ} {text : Bytes}

theorem utf8IsValidLoop_of_none (h : continuations ch = none) (hleft : left ≠ 0) :
    utf8IsValidLoop (rounds + 1) (ch :: text) left = .ok false := by
  simp only [utf8IsValidLoop, if_neg hleft, h]

theorem utf8IsValidLoop_of_some (h : Leads ch n) (hleft : left ≠ 0) :
    utf8IsValidLoop (rounds + 1) (ch :: text) left = if left < n then .ok false
      else continues n text >>= fun all =>
        if all then utf8IsValidLoop rounds (text.drop n) (left - (n + 1)) else .ok false := by
  simp only [utf8IsValidLoop, if_neg hleft, continuations_eq_some_iff.mpr h]
  rfl

theorem utf8Decode_of_none (h : continuations ch = none) (hleft : left ≠ 0) :
    utf8Decode (ch :: text) left = .ok (-1, none) := by
  simp only [utf8Decode, if_neg hleft, h]

theorem utf8Decode_of_some (h : Leads ch n) (hleft : left ≠ 0) : utf8Decode (ch :: text) left =
      if left < n + 1 then .ok (-1, none)
      else decodeLoop n text (if n = 0 then ch else ch &&& (0x7f >>> UInt8.ofNat n)).toUInt32 >>=
        fun value => .ok ((n + 1 : ℕ), some value) := by
  simp only [utf8Decode, if_neg hleft, continuations_eq_some_iff.mpr h]
  rfl

end Turns

/-- The loop tells complete sequences, if the text is not one byte short. -/
theorem utf8IsValidLoop_eq (behind : Bytes) : ∀ (rounds : ℕ) (bs : Bytes), bs.length < rounds →
    ¬ Sequences 1 bs → ∃ valid, utf8IsValidLoop rounds (bs ++ behind) bs.length = .ok valid ∧
      (valid = true ↔ Sequences 0 bs) := by
  intro rounds
  induction rounds with
  | zero => exact fun bs h => absurd h (Nat.not_lt_zero _)
  | succ rounds ih =>
    intro bs hrounds hshort
    cases bs with
    | nil => exact ⟨true, by simp [utf8IsValidLoop], iff_of_true rfl .nil⟩
    | cons ch bs =>
      rw [length_cons] at hrounds
      cases hlead : continuations ch with
      | none =>
        refine ⟨false, utf8IsValidLoop_of_none hlead (by simp),
          iff_of_false Bool.false_ne_true fun h => ?_⟩
        cases h with
        | cons hlead' => simp [continuations_eq_some_iff.mpr hlead'] at hlead
      | some n =>
        rw [continuations_eq_some_iff] at hlead
        rw [sequences_cons_iff hlead] at hshort
        rw [sequences_cons_iff hlead, cons_append, length_cons,
          utf8IsValidLoop_of_some hlead (Nat.succ_ne_zero _)]
        by_cases hfew : bs.length + 1 < n
        · rw [if_pos hfew]
          refine ⟨false, rfl, iff_of_false Bool.false_ne_true ?_⟩
          omega
        rw [if_neg hfew]
        by_cases hle : n ≤ bs.length
        · rw [continues_eq hle, Checked.ok_bind]
          by_cases hall : ∀ b ∈ bs.take n, IsContinuation b
          · obtain ⟨valid, hvalid, hiff⟩ := ih (bs.drop n) (by rw [length_drop]; omega)
              fun h => hshort (.inl ⟨hle, hall, h⟩)
            refine ⟨valid, ?_, ?_⟩
            · rw [decide_eq_true hall, if_pos rfl, drop_append_of_le_length hle,
                ← hvalid, length_drop]
              congr 1
              omega
            · rw [hiff]
              exact ⟨fun h => .inl ⟨hle, hall, h⟩, fun h => (h.resolve_right (by omega)).2.2⟩
          · rw [decide_eq_false hall]
            exact ⟨false, rfl, by simp [hall]⟩
        · -- one byte is missing, and a byte that is there is no continuation byte
          obtain rfl : n = bs.length + 1 := by omega
          have hall : ¬ ∀ b ∈ bs, IsContinuation b := fun hall =>
            hshort (.inr ⟨Nat.one_pos, rfl, hall⟩)
          rw [continues_succ_length, if_neg hall]
          exact ⟨false, rfl, by simp⟩

/-- A text that is one byte short is complete sequences to the loop, if the byte behind it is a
continuation byte. -/
theorem Sequences.loop_of_one (h : Sequences missing bs) (hone : missing = 1) : ∀ rounds,
    bs.length < rounds → utf8IsValidLoop rounds (bs ++ [0x80]) bs.length = .ok true := by
  induction h with
  | nil => cases hone
  | @cut m ch tail hlead hall =>
    obtain rfl : m = 0 := by omega
    intro rounds hrounds
    obtain ⟨rounds, rfl⟩ : ∃ r, rounds = r + 2 :=
      ⟨rounds - 2, by rw [length_cons] at hrounds; omega⟩
    rw [cons_append, utf8IsValidLoop_of_some hlead (by simp), if_neg (by simp),
      continues_succ_length, if_pos hall]
    have hlast : continues 1 [0x80] = .ok true := by decide
    simp [hlast, utf8IsValidLoop]
  | @cons m ch tail rest hlead hall _ ih =>
    intro rounds hrounds
    obtain ⟨rounds, rfl⟩ : ∃ r, rounds = r + 1 := ⟨rounds - 1, by omega⟩
    simp only [length_cons, length_append] at hrounds
    have htail : tail.length ≤ (tail ++ rest).length := by simp
    rw [cons_append, utf8IsValidLoop_of_some hlead (by simp), if_neg (by simp; omega),
      continues_eq htail, take_left, decide_eq_true hall, Checked.ok_bind,
      if_pos rfl, append_assoc, drop_left, ← ih hone rounds (by omega)]
    congr 1
    simp

theorem Sequences.eq (h : Sequences missing bs) : ∀ {m : ℕ}, Sequences m bs → missing = m := by
  induction h with
  | nil => exact fun h' => by cases h'; rfl
  | cut hlead hall =>
    intro m h'
    rcases (sequences_cons_iff hlead).mp h' with ⟨hle, _⟩ | ⟨_, heq, _⟩
    · omega
    · omega
  | cons hlead hall _ ih =>
    intro m h'
    rcases (sequences_cons_iff hlead).mp h' with ⟨_, _, hmore⟩ | ⟨hpos, heq, _⟩
    · rw [drop_left] at hmore
      exact ih hmore
    · rw [length_append] at heq
      omega

theorem validatesRight_iff (text : Bytes) : ValidatesRight text ↔ ¬ Sequences 1 text := by
  constructor
  · intro h hshort
    obtain ⟨valid, hvalid, hiff⟩ := h [0x80]
    rw [utf8IsValid, hshort.loop_of_one rfl _ (Nat.lt_succ_self _)] at hvalid
    obtain rfl := Except.ok.inj hvalid
    exact absurd (hshort.eq (hiff.mp rfl)) (by decide)
  · exact fun h behind => utf8IsValidLoop_eq behind _ text (Nat.lt_succ_self _) h

theorem decodeLoop_isOk (behind : Bytes) : ∀ {n : ℕ} {bs : Bytes} (value : UInt32), n ≤ bs.length →
    ∃ v, decodeLoop n (bs ++ behind) value = .ok v := by
  intro n
  induction n with
  | zero => exact fun value _ => ⟨value, rfl⟩
  | succ n ih =>
    intro bs value hn
    cases bs with
    | nil => simp at hn
    | cons b bs => exact ih _ (by simpa using hn)

/-- The text begins with a lead byte and has room for its sequence: it is decoded. -/
theorem utf8Decode_of_leads (hlead : Leads ch n) (hle : n ≤ bs.length) (behind : Bytes) :
    ∃ value, utf8Decode (ch :: bs ++ behind) (ch :: bs).length = .ok ((n + 1 : ℕ), some value) := by
  obtain ⟨value, hvalue⟩ := decodeLoop_isOk behind
    (if n = 0 then ch else ch &&& (0x7f >>> UInt8.ofNat n)).toUInt32 hle
  refine ⟨value, ?_⟩
  rw [cons_append, utf8Decode_of_some hlead (by simp), if_neg (by simpa using hle), hvalue]
  rfl

theorem decodesRight_iff (text : Bytes) : DecodesRight text ↔ StartsUnbroken text := by
  constructor
  · rintro h ch rest n rfl hlead hle
    obtain ⟨value, hvalue⟩ := utf8Decode_of_leads hlead hle []
    obtain ⟨ch', tail, rest', heq, -, hlead', hall⟩ := h [] _ _ hvalue (by positivity)
    obtain ⟨rfl, rfl⟩ := cons.inj heq
    rwa [hlead.eq hlead', take_left]
  · intro h behind r value hvalue hr
    cases text with
    | nil =>
      cases hvalue
      exact absurd hr (lt_irrefl _)
    | cons ch bs =>
      cases hlead : continuations ch with
      | none =>
        rw [cons_append, utf8Decode_of_none hlead (by simp)] at hvalue
        cases hvalue
        exact absurd hr (by decide)
      | some n =>
        have hleads := continuations_eq_some_iff.mp hlead
        by_cases hle : n ≤ bs.length
        · obtain ⟨v, hv⟩ := utf8Decode_of_leads hleads hle behind
          rw [hv] at hvalue
          cases hvalue
          refine ⟨ch, bs.take n, bs.drop n, by rw [take_append_drop], ?_, ?_,
            h ch bs n rfl hleads hle⟩ <;> rw [length_take_of_le hle]
          exact hleads
        · rw [cons_append, utf8Decode_of_some hleads (by simp),
            if_pos (by simpa using hle)] at hvalue
          cases hvalue
          exact absurd hr (by decide)

/-- For every text, whatever is behind it in memory: `utf8IsValid` tells exactly complete sequences
if and only if the text is not complete sequences and one that is one byte short; and `utf8Decode`
returns the length of complete sequences only, if and only if the first sequence is not broken. -/
theorem utf8_right_iff (text : Bytes) :
    (ValidatesRight text ↔ ¬ Sequences 1 text) ∧ (DecodesRight text ↔ StartsUnbroken text) :=
  ⟨validatesRight_iff text, decodesRight_iff text⟩

/-- The first byte of a sequence of two is valid text before a continuation byte, and outside the
memory without one. A lead byte and a letter are decoded. -/
theorem cut_sequence_is_valid :
    utf8IsValid [0xc3, 0xa9] 1 = .ok true ∧ utf8IsValid [0xc3] 1 = .error .outOfBounds ∧
      utf8Decode [0xc3, 0x41] 2 = .ok (2, some 0xc1) ∧
      ¬ ValidatesRight [0xc3] ∧ ¬ DecodesRight [0xc3, 0x41] := by
  have hdecode : utf8Decode [0xc3, 0x41] 2 = .ok (2, some 0xc1) := by decide
  refine ⟨by decide, by decide, hdecode, fun h => ?_, fun h => ?_⟩
  · obtain ⟨valid, hvalid, -⟩ := h []
    cases hvalid
  · obtain ⟨ch, tail, rest, heq, hr, -, hall⟩ := h [] _ _ hdecode (by decide)
    obtain ⟨-, htail⟩ := cons.inj heq
    obtain ⟨b, rfl⟩ := length_eq_one_iff.mp (show tail.length = 1 by omega)
    obtain ⟨rfl, -⟩ := cons.inj htail
    exact absurd (hall _ (mem_singleton_self _)) (by decide)

end AndroidEmu.Base
