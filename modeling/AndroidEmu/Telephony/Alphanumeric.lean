import AndroidEmu.Telephony.Gsm7
import AndroidEmu.Telephony.Sms

/-!
# Alphanumeric addresses

`sms_alphanum_address_from_str` packs the characters of an address as ASCII codes. Of those it
accepts, `@` and `_` have other codes in the GSM alphabet.
-/

namespace AndroidEmu.Telephony

open CS List Nat

theorem leNat_packAlphanum (src : Bytes) (h : ∀ c ∈ src, c.toNat < 128) :
    ∀ {bits size : ℕ}, size < 8 → bits < 2 ^ size →
      leNat (packAlphanum bits size src) =
        bits + 2 ^ size * Nat.ofDigits 128 (src.map UInt8.toNat) := by
  induction src with
  | nil =>
    intro bits size hsize hbits
    rw [packAlphanum]
    split_ifs with hpos
    · have := hbits.trans_le (pow_le_pow_right₀ one_le_two hsize.le)
      simp [leNat_cons, toNat_ofNat_of_lt this]
    · obtain rfl : size = 0 := by omega
      obtain rfl : bits = 0 := by omega
      rfl
  | cons c src ih =>
    intro bits size hsize hbits
    obtain ⟨hc, hsrc⟩ := forall_mem_cons.mp h
    have hlt := add_two_pow_mul_lt hbits (show c.toNat < 2 ^ 7 from hc)
    rw [packAlphanum, or_shiftLeft_of_lt hbits, map_cons, ofDigits_cons]
    by_cases hfull : 8 ≤ size + 7
    · obtain ⟨size, rfl⟩ : ∃ n, size = n + 1 := ⟨size - 1, by omega⟩
      simp only [if_pos hfull, leNat_cons, UInt8.toNat_ofNat', shiftRight_eq_div_pow]
      rw [ih hsrc (by omega) (by
        rw [div_lt_iff_lt_mul (by positivity), ← pow_add]
        exact hlt)]
      rw [show size + 1 + 7 - 8 = size by omega, show (2 : ℕ) ^ 8 = 256 by norm_num, mul_add,
        ← add_assoc, mod_add_div, pow_succ]
      ring
    · obtain rfl : size = 0 := by omega
      simp only [if_neg hfull]
      rw [ih hsrc (by norm_num) hlt]
      push_cast
      ring

/-- The code in the GSM alphabet of a character that is accepted. -/
def gsmCode (c : UInt8) : ℕ := if c = 0x40 then 0 else if c = 0x5f then 0x11 else c.toNat

theorem accepted_spec {c : UInt8} (h : isInGsmDefaultAlphabet c = true) :
    c.toNat < 128 ∧ charSeptets c.toNat = [gsmCode c] := by
  have htable : ∀ n < 256, isInGsmDefaultAlphabet (UInt8.ofNat n) = true →
      n < 128 ∧ charSeptets n = [gsmCode (UInt8.ofNat n)] := by decide +kernel
  have hc := htable c.toNat c.toNat_lt
  rw [UInt8.ofNat_toNat] at hc
  exact hc h

theorem flatMap_toNat {α : Type} {src : Bytes} {f : ℕ → List α} {g : UInt8 → α}
    (h : ∀ c ∈ src, f c.toNat = [g c]) : (src.map UInt8.toNat).flatMap f = src.map g := by
  induction src with
  | nil => rfl
  | cons c src ih =>
    obtain ⟨hc, hsrc⟩ := forall_mem_cons.mp h
    rw [map_cons, flatMap_cons, hc, ih hsrc]
    rfl

/-- The septets of an alphanumeric address are those that `utf8_to_gsm7` packs for the string if
and only if there is no `@` and no `_` in it. -/
theorem alphanum_septets_iff (src : Bytes) (a : SmsAddress)
    (h : smsAlphanumAddressFromStr src = some a) :
    ∃ bytes, utf8ToGsm7 src (List.replicate 10 0) 0 = .ok (bytes, 7 * src.length) ∧
      (groups 7 src.length (leNat a.data) = groups 7 src.length (leNat bytes) ↔
        0x40 ∉ src ∧ 0x5f ∉ src) := by
  rw [smsAlphanumAddressFromStr] at h
  split_ifs at h with hsize hall
  obtain rfl := Option.some.inj h
  have hall := fun c hc => accepted_spec (all_eq_true.mp hall c hc)
  have hutf8 : utf8 (src.map UInt8.toNat) = src := by
    rw [utf8, flatMap_toNat (g := id), map_id]
    intro c hc
    rw [utf8Write, if_pos (hall c hc).1, UInt8.ofNat_toNat]
    rfl
  have hseptets : septets (src.map UInt8.toNat) = src.map gsmCode :=
    flatMap_toNat fun c hc => (hall c hc).2
  have hbasic : Basic (src.map UInt8.toNat) := by
    intro v hv
    obtain ⟨c, -, rfl⟩ := mem_map.mp hv
    exact c.toNat_lt.trans (by norm_num)
  obtain ⟨bytes, x, hpack, -, hvalue⟩ := utf8ToGsm7_spec hbasic (replicate 10 0)
    (show 0 < 8 by norm_num) (by rw [hseptets, length_map, length_replicate]; omega)
  rw [hutf8, hseptets, length_map, zero_add] at hpack
  refine ⟨bytes, hpack, ?_⟩
  have hraw := @groups_ofDigits 7 (src.map UInt8.toNat) (by
    intro v hv
    obtain ⟨c, hc, rfl⟩ := mem_map.mp hv
    exact (hall c hc).1) 0
  have hgsm := @groups_ofDigits 7 (septets (src.map UInt8.toNat)) lt_of_mem_septets x
  rw [leNat_replicate_zero, zero_mod, pow_zero, one_mul, zero_add] at hvalue
  rw [hseptets, length_map] at hgsm hvalue
  rw [length_map, mul_zero, add_zero] at hraw
  rw [leNat_append, leNat_replicate_zero, mul_zero, add_zero,
    leNat_packAlphanum src (fun c hc => (hall c hc).1) (by norm_num) (by norm_num), zero_add,
    pow_zero, one_mul, hvalue]
  rw [show (128 : ℕ) = 2 ^ 7 by norm_num, hraw, hgsm, map_inj_left]
  constructor
  · intro hcodes
    exact ⟨fun hat => absurd (hcodes _ hat) (by decide),
      fun hunder => absurd (hcodes _ hunder) (by decide)⟩
  · rintro ⟨hat, hunder⟩ c hc
    rw [gsmCode, if_neg (ne_of_mem_of_not_mem hc hat), if_neg (ne_of_mem_of_not_mem hc hunder)]

/-- The address `A1_`. -/
theorem alphanum_septets_iff_three : ∃ a, smsAlphanumAddressFromStr [0x41, 0x31, 0x5f] = some a ∧
      ∃ bytes, utf8ToGsm7 [0x41, 0x31, 0x5f] (List.replicate 10 0) 0 = .ok (bytes, 7 * 3) ∧
        (groups 7 3 (leNat a.data) = groups 7 3 (leNat bytes) ↔
          (0x40 : UInt8) ∉ [0x41, 0x31, 0x5f] ∧ (0x5f : UInt8) ∉ [0x41, 0x31, 0x5f]) :=
  ⟨_, rfl, alphanum_septets_iff [0x41, 0x31, 0x5f] _ rfl⟩

/-- The address `@` is packed as 0x40, and its septet is zero. -/
theorem at_sign_differs :
    (smsAlphanumAddressFromStr [0x40]).map (fun a => groups 7 1 (leNat a.data)) = some [0x40] ∧
      (utf8ToGsm7 [0x40] (List.replicate 10 0) 0).map (fun r => groups 7 1 (leNat r.1)) =
        .ok [0] := by
  decide +kernel

end AndroidEmu.Telephony
