import AndroidEmu.Pipe.Device

/-!
# The table of pipes

Every open pipe is in the table at its own id, and every pipe in memory is open. Growing the table
is where it can go wrong: the new capacity is computed in 32 bits from an id the guest chooses.
-/

namespace AndroidEmu.Pipe

open CS List Option

/-! ### Memory -/

theorem content_put (s : Store HwPipe) (r q : ℕ) (v : Option HwPipe) :
    content (s.put r v) q = if q = r then v.map HwPipe.core else content s q := by
  rw [content, Store.put_cell]
  split_ifs <;> rfl

variable {s : Store HwPipe}

theorem content_eq_none {r : ℕ} : content s r = none ↔ s.cell r = none := by
  simp [content]

theorem exists_cell_of_content {r : ℕ} {p : HwPipe} (h : content s r = some p) :
    ∃ p', s.cell r = some p' ∧ p'.core = p := map_eq_some_iff.mp h

theorem content_of_cell {r : ℕ} {p : HwPipe} (h : s.cell r = some p) :
    content s r = some p.core := by
  rw [content, h]
  rfl

namespace PipeDevice

def lookup (d : PipeDevice) (i : ℕ) : Option ℕ :=
  if i < d.pipesCapacity then (d.pipes[i]?).join else none

/-- The pipe at an address, without its links. -/
abbrev pipeAt (d : PipeDevice) (r : ℕ) : Option HwPipe := content d.wanted.pipes r

/-- Table and memory agree: a slot holds a pipe with that id, and every pipe in memory is
in its slot. -/
structure TableOk (d : PipeDevice) : Prop where
  length_le : d.pipesCapacity ≤ d.pipes.length
  capacity_lt : d.pipesCapacity < 2 ^ 31
  found : ∀ {i r}, d.lookup i = some r → ∃ p, d.pipeAt r = some p ∧ p.id = i
  stored : ∀ {r p}, d.pipeAt r = some p → d.lookup p.id = some r

variable {d d' : PipeDevice} {i j r : ℕ} {p : HwPipe}

theorem lt_capacity_of_lookup (h : d.lookup i = some r) : i < d.pipesCapacity := by
  by_contra hi
  rw [lookup, if_neg hi] at h
  simp at h

section

variable (hlen : d.pipesCapacity ≤ d.pipes.length)

include hlen

theorem lookup_set (hi : i < d.pipesCapacity) (v : Option ℕ) (j : ℕ) :
    { d with pipes := d.pipes.set i v }.lookup j = if j = i then v else d.lookup j := by
  simp only [lookup]
  by_cases hj : j = i
  · subst hj
    rw [if_pos hi, if_pos rfl, List.getElem?_set_self (by omega)]
    rfl
  · rw [if_neg hj, getElem?_set_ne (Ne.symm hj)]

theorem slot_of (hi : i < d.pipesCapacity) : d.slot i = .ok (d.lookup i) := by
  have hget : d.pipes[i]? = some (d.pipes.get ⟨i, by omega⟩) :=
    getElem?_eq_getElem (by omega)
  rw [slot, if_pos hi, lookup, if_pos hi, readAt_of_getElem? hget, hget]
  rfl

theorem setSlot_of (hi : i < d.pipesCapacity)
    (v : Option ℕ) : d.setSlot i v = .ok { d with pipes := d.pipes.set i v } := by
  rw [setSlot, if_pos hi, writeAt_of_lt (by omega)]
  rfl

end

namespace TableOk

theorem slot (h : d.TableOk) (hi : i < d.pipesCapacity) : d.slot i = .ok (d.lookup i) :=
  slot_of h.length_le hi

theorem stored_cell (h : d.TableOk) (hp : d.wanted.pipes.cell r = some p) :
    d.lookup p.id = some r := h.stored (p := p.core) (content_of_cell hp)

theorem congr (h : d.TableOk) (hpipes : d'.pipes = d.pipes)
    (hcapacity : d'.pipesCapacity = d.pipesCapacity)
    (hcontent : content d'.wanted.pipes = content d.wanted.pipes) : d'.TableOk := by
  have hlookup : d'.lookup = d.lookup := by
    funext j
    rw [lookup, lookup, hpipes, hcapacity]
  constructor
  case length_le => rw [hpipes, hcapacity]; exact h.length_le
  case capacity_lt => rw [hcapacity]; exact h.capacity_lt
  case found =>
    intro i r hi
    rw [hlookup] at hi
    rw [pipeAt, hcontent]
    exact h.found hi
  case stored =>
    intro r p hp
    rw [pipeAt, hcontent] at hp
    rw [hlookup]
    exact h.stored hp

theorem insert (h : d.TableOk) (hlen : d'.pipes.length = d.pipes.length)
    (hcapacity : d'.pipesCapacity = d.pipesCapacity) (hfree : d.lookup i = none)
    (hnew : d.pipeAt r = none) (hid : p.id = i)
    (hlookup : ∀ j, d'.lookup j = if j = i then some r else d.lookup j)
    (hcontent : ∀ q, d'.pipeAt q = if q = r then some p else d.pipeAt q) : d'.TableOk := by
  constructor
  case length_le => rw [hlen, hcapacity]; exact h.length_le
  case capacity_lt => rw [hcapacity]; exact h.capacity_lt
  case found =>
    intro j q hj
    rw [hlookup] at hj
    split_ifs at hj with hji
    · obtain rfl := some.inj hj
      exact ⟨p, by rw [hcontent, if_pos rfl], hid.trans hji.symm⟩
    · obtain ⟨p', hp', hid'⟩ := h.found hj
      have hqr : q ≠ r := by
        rintro rfl
        rw [hnew] at hp'
        simp at hp'
      exact ⟨p', by rw [hcontent, if_neg hqr, hp'], hid'⟩
  case stored =>
    intro q p' hp'
    rw [hcontent] at hp'
    rw [hlookup]
    split_ifs at hp' with hqr
    · obtain rfl := some.inj hp'
      rw [if_pos hid, hqr]
    · have hq := h.stored hp'
      have hne : p'.id ≠ i := by
        intro hi
        rw [hi, hfree] at hq
        simp at hq
      rw [if_neg hne, hq]

theorem remove (h : d.TableOk) (hlen : d'.pipes.length = d.pipes.length)
    (hcapacity : d'.pipesCapacity = d.pipesCapacity) (hr : d.lookup i = some r)
    (hlookup : ∀ j, d'.lookup j = if j = i then none else d.lookup j)
    (hcontent : ∀ q, d'.pipeAt q = if q = r then none else d.pipeAt q) : d'.TableOk := by
  constructor
  case length_le => rw [hlen, hcapacity]; exact h.length_le
  case capacity_lt => rw [hcapacity]; exact h.capacity_lt
  case found =>
    intro j q hj
    rw [hlookup] at hj
    split_ifs at hj with hji
    obtain ⟨p', hp', hid'⟩ := h.found hj
    have hqr : q ≠ r := by
      rintro rfl
      obtain ⟨p, hp, hid⟩ := h.found hr
      rw [hp] at hp'
      exact hji (hid' ▸ hid ▸ congrArg HwPipe.id (some.inj hp').symm)
    exact ⟨p', by rw [hcontent, if_neg hqr, hp'], hid'⟩
  case stored =>
    intro q p' hp'
    rw [hcontent] at hp'
    split_ifs at hp' with hqr
    have hq := h.stored hp'
    have hne : p'.id ≠ i := by
      intro hi
      rw [hi, hr] at hq
      exact hqr (some.inj hq).symm
    rw [hlookup, if_neg hne, hq]

/-! ### Closing all pipes -/

theorem closeSlot (h : d.TableOk) (hr : d.lookup i = some r) : let d' : PipeDevice := { d with
      pipes := d.pipes.set i none
      wanted.pipes := d.wanted.pipes.put r none }
    (d.hwpipeFree r >>= fun d => d.setSlot i none) = .ok d' ∧ d'.TableOk ∧
      ∀ j, d'.lookup j = if j = i then none else d.lookup j := by
  intro d'
  have hi := lt_capacity_of_lookup hr
  obtain ⟨p, hp, -⟩ := h.found hr
  obtain ⟨p', hp', -⟩ := exists_cell_of_content hp
  have hlookup : ∀ j, d'.lookup j = if j = i then none else d.lookup j :=
    lookup_set h.length_le hi none
  refine ⟨?_, ?_, hlookup⟩
  · rw [hwpipeFree, Store.free_of hp']
    exact setSlot_of (d := { d with wanted.pipes := d.wanted.pipes.put r none }) h.length_le hi none
  · exact h.remove (length_set ..) rfl hr hlookup fun q => content_put _ r q none

theorem closeAllFrom : ∀ {n i : ℕ} {d : PipeDevice}, d.TableOk → i + n = d.pipesCapacity →
    (∀ j, j < i → d.lookup j = none) →
    ∃ pipes store, let d' : PipeDevice := { d with pipes, wanted.pipes := store }
      PipeDevice.closeAllFrom i n d = .ok d' ∧ d'.TableOk ∧ ∀ j, d'.lookup j = none := by
  intro n
  induction n with
  | zero =>
    intro i d h hcap hempty
    refine ⟨d.pipes, d.wanted.pipes, rfl, h, fun j => ?_⟩
    by_cases hj : j < i
    · exact hempty j hj
    · exact if_neg (by simpa using (by omega : d.pipesCapacity ≤ j))
  | succ n ih =>
    intro i d h hcap hempty
    rw [PipeDevice.closeAllFrom, h.slot (by omega), Checked.ok_bind]
    cases hr : d.lookup i with
    | none =>
      refine ih h (by omega) fun j hj => ?_
      by_cases hji : j = i
      · rw [hji, hr]
      · exact hempty j (by omega)
    | some r =>
      obtain ⟨hclose, hok, hlookup⟩ := h.closeSlot hr
      obtain ⟨d1, hfree, hset⟩ := Checked.bind_eq_ok.mp hclose
      simp only [hfree, hset, Checked.ok_bind]
      obtain ⟨pipes, store, hrest⟩ := ih (i := i + 1) hok (by simpa using by omega) (by
        intro j hj
        rw [hlookup]
        split_ifs with hji
        · rfl
        · exact hempty j (by omega))
      exact ⟨pipes, store, hrest⟩

theorem closeAll (h : d.TableOk) :
    ∃ pipes store, let d' : PipeDevice := { d with pipes, wanted.pipes := store }
      d.closeAll = .ok d' ∧ d'.TableOk ∧ (∀ j, d'.lookup j = none) ∧ ∀ q, d'.pipeAt q = none := by
  obtain ⟨pipes, store, hclose, hok, hlookup⟩ := h.closeAllFrom (Nat.zero_add _) (by omega)
  refine ⟨pipes, store, hclose, hok, hlookup, fun q => ?_⟩
  rw [eq_none_iff_forall_ne_some]
  intro p hp
  have := hok.stored hp
  rw [hlookup] at this
  simp at this

/-! ### Growing the table -/

/-- For an id other than the largest one the computed capacity is negative as an `int`, or
the table of that size has a slot for the id. -/
theorem newCapacity_cases (h : d.TableOk) (hfull : d.pipesCapacity ≤ i) (hi : i < 2 ^ 32 - 1) :
    d.newCapacity i < 0 ∨
      ∃ n : ℕ, d.newCapacity i = n ∧ i < n ∧ d.pipesCapacity ≤ n ∧ n < 2 ^ 31 := by
  have hlt := h.capacity_lt
  have hneeded : wrapNat 32 (i + 1) = i + 1 := wrapNat_of_lt (by omega)
  have hdoubled : wrapNat 32 (2 * d.pipesCapacity) = 2 * d.pipesCapacity := wrapNat_of_lt (by omega)
  simp only [newCapacity, hneeded, hdoubled]
  generalize hn : (if 2 * d.pipesCapacity < i + 1 then i + 1 else 2 * d.pipesCapacity) = n
  have hbounds : i < n ∧ d.pipesCapacity ≤ n ∧ n < 2 ^ 32 := by
    split_ifs at hn <;> omega
  by_cases hsmall : n < 2 ^ 31
  · right
    exact ⟨n, wrapInt_of_bounds (by omega) (by omega), hbounds.1, hbounds.2.1, hsmall⟩
  · left
    rw [wrapInt, Int.bmod_def]
    omega

/-- Growing for an id other than the largest one is refused, or gives a table that has a
slot for the id and is otherwise the same. -/
theorem grow (h : d.TableOk) (heap : Heap) (hi : i < 2 ^ 32 - 1) : d.grow heap i = .ok none ∨
      ∃ pipes capacity, let d' : PipeDevice := { d with pipes, pipesCapacity := capacity }
        d.grow heap i = .ok (some d') ∧ d'.TableOk ∧ i < capacity ∧ d'.lookup = d.lookup ∧
          (i < d.pipesCapacity → pipes = d.pipes ∧ capacity = d.pipesCapacity) := by
  rw [PipeDevice.grow]
  by_cases hroom : i < d.pipesCapacity
  · rw [if_pos hroom]
    exact .inr ⟨d.pipes, d.pipesCapacity, rfl, h, hroom, rfl, fun _ => ⟨rfl, rfl⟩⟩
  rw [if_neg hroom]
  rcases h.newCapacity_cases (by omega) hi with hneg | ⟨n, hn, hin, hle, hlt⟩
  · -- a negative capacity is a huge size, which no allocator grants
    have hlow : -2 ^ 31 ≤ d.newCapacity i := neg_le_wrapInt _
    have hhuge : 2 ^ 63 ≤ toSize (d.newCapacity i) * pointerBytes := by
      rw [toSize, pointerBytes]
      omega
    rw [if_neg (by rw [heap.refuses_oversized _ hhuge]; simp)]
    exact .inl rfl
  · have hsize : toSize (d.newCapacity i) = n := by
      rw [toSize]
      omega
    have hwrap : wrapNat 32 n = n := wrapNat_of_lt (by omega)
    simp only [hsize, hwrap]
    by_cases hgrant : heap.grants (n * pointerBytes) = true
    swap
    · rw [if_neg hgrant]
      exact .inl rfl
    rw [if_pos hgrant, if_pos ⟨hle, h.length_le⟩]
    right
    set pipes := d.pipes.take d.pipesCapacity ++ List.replicate (n - d.pipesCapacity) none
      with hpipes
    have hlen := h.length_le
    have hlookup : { d with pipes, pipesCapacity := n }.lookup = d.lookup := by
      funext j
      simp only [lookup, hpipes]
      by_cases hj : j < d.pipesCapacity
      · rw [if_pos hj, if_pos (by omega), getElem?_append_left (by simp; omega),
          getElem?_take_of_lt hj]
      rw [if_neg hj]
      split_ifs
      · rw [getElem?_append_right (by simp; omega)]
        simp only [getElem?_replicate]
        split_ifs <;> rfl
      · rfl
    refine ⟨pipes, n, rfl, ?_, hin, hlookup, fun hi => absurd hi hroom⟩
    constructor
    case length_le =>
      simp only [hpipes, length_append, length_take, length_replicate]
      omega
    case capacity_lt => exact hlt
    case found => exact fun hr => h.found (hlookup ▸ hr)
    case stored => exact fun hp => hlookup ▸ h.stored hp

end TableOk

end PipeDevice

end AndroidEmu.Pipe
