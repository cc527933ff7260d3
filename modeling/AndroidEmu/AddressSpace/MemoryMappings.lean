import AndroidEmu.CS.Checked
import AndroidEmu.CS.OrderedMap

/-!
# Host pointers of guest addresses

`address_space_device.cpp` also keeps the host memory that is mapped into the guest, by the guest
address where a mapping begins, and looks up the host pointer of a guest address.
-/

namespace AndroidEmu.AddressSpace

open CS OrderedMap Checked

/-- The base, the host pointer and the size of each mapping. -/
abbrev MemoryMappings := List (ℕ × ℕ × ℕ)

inductive MappingOp
  | add (gpa ptr size : ℕ)
  | remove (gpa : ℕ)

def InMapping (x : ℕ × ℕ × ℕ) (gpa : ℕ) : Prop := x.1 ≤ gpa ∧ gpa < x.1 + x.2.2

namespace MemoryMappings

variable {m : MemoryMappings} {x : ℕ × ℕ × ℕ} {gpa p : ℕ}

/-- `sAddressSpaceDeviceAddMemoryMapping`. -/
def addMemoryMappingLocked (m : MemoryMappings) (gpa ptr size : ℕ) : MemoryMappings × Bool :=
  if (get m gpa).isSome then (m, false) else (set m gpa (ptr, size), true)

/-- To remove a mapping that is not there writes to the address 123. -/
def removeMemoryMappingLocked (m : MemoryMappings) (gpa : ℕ) : Checked (MemoryMappings × Bool) :=
  if (get m gpa).isSome then .ok (erase m gpa, true) else .error .nullPointer

/-- `sAddressSpaceDeviceGetHostPtr`. -/
def getHostPtrLocked (m : MemoryMappings) (gpa : ℕ) : Option ℕ :=
  match (lowerBound m gpa).filter fun x => x.1 = gpa with
  | some (_, ptr, _) => some ptr
  | none => (before m gpa).bind fun (base, ptr, size) =>
    if gpa < (base + size) % 2 ^ 64 then some (ptr + (gpa - base)) else none

def step (m : MemoryMappings) : MappingOp → Checked (MemoryMappings × Bool)
  | .add gpa ptr size => .ok (m.addMemoryMappingLocked gpa ptr size)
  | .remove gpa => m.removeMemoryMappingLocked gpa

theorem sorted_of_run {ops : List MappingOp} (h : (run step [] ops).2 = .ok m) : Sorted m := by
  have hall : (run step [] ops).2.Ensures (fun m => Sorted m) fun _ => True := by
    refine run_invariant_always (fun m i hm => ?_) ops [] .nil
    cases i with
    | add gpa ptr size =>
      rw [step, addMemoryMappingLocked]
      split_ifs
      · exact hm
      · exact hm.set gpa _
    | remove gpa =>
      rw [step, removeMemoryMappingLocked]
      split_ifs
      · exact hm.erase gpa
      · trivial
  exact hall.of_ok h

/-- The mappings are disjoint and end inside the addresses of 64 bits. -/
structure Separate (m : MemoryMappings) : Prop where
  disjoint : ∀ x ∈ m, ∀ y ∈ m, x.1 < y.1 → x.1 + x.2.2 ≤ y.1
  le : ∀ x ∈ m, x.1 < 2 ^ 64 ∧ x.1 + x.2.2 ≤ 2 ^ 64

/-- A mapping that is looked up right: not empty, and with an end that does not wrap to 0 or is not
looked at. -/
def Found (x : ℕ × ℕ × ℕ) : Prop := 0 < x.2.2 ∧ (x.1 + x.2.2 < 2 ^ 64 ∨ x.2.2 = 1)

/-- The lookup gives the host pointers of the addresses that are mapped, and of no others. -/
def Finds (m : MemoryMappings) : Prop := ∀ gpa < 2 ^ 64, ∀ p, m.getHostPtrLocked gpa = some p ↔
  ∃ x ∈ m, InMapping x gpa ∧ p = x.2.1 + (gpa - x.1)

section

variable (hm : Sorted m)

include hm

/-- The lookup looks at the last mapping that does not begin after the address. -/
theorem lookup_cases (gpa : ℕ) :
    (∃ y ∈ m, y.1 ≤ gpa ∧ (∀ q ∈ m, q.1 ≤ gpa → q.1 ≤ y.1) ∧ m.getHostPtrLocked gpa =
      if y.1 = gpa ∨ gpa < (y.1 + y.2.2) % 2 ^ 64 then some (y.2.1 + (gpa - y.1)) else none) ∨
    (∀ y ∈ m, gpa < y.1) ∧ m.getHostPtrLocked gpa = none := by
  by_cases hkey : ∃ y ∈ m, y.1 = gpa
  · obtain ⟨y, hy, rfl⟩ := hkey
    have hbound : lowerBound m y.1 = some y :=
      (lowerBound_eq_some hm).mpr ⟨hy, le_rfl, fun _ _ => id⟩
    refine .inl ⟨y, hy, le_rfl, fun _ _ => id, ?_⟩
    rw [getHostPtrLocked, hbound, Option.filter_some_pos (by simp)]
    simp
  · push Not at hkey
    have hnone : ((lowerBound m gpa).filter fun x => x.1 = gpa) = none := by
      refine Option.filter_eq_none_iff.mpr fun y hy => ?_
      simpa using hkey y ((lowerBound_eq_some hm).mp hy).1
    rw [getHostPtrLocked, hnone]
    cases hbefore : before m gpa with
    | none =>
      have hge := before_eq_none.mp hbefore
      exact .inr ⟨fun y hy => lt_of_le_of_ne (hge y hy) (hkey y hy).symm, rfl⟩
    | some y =>
      obtain ⟨hy, hlt, hmax⟩ := before_eq_some hm hbefore
      refine .inl ⟨y, hy, hlt.le, fun q hq hle => hmax q hq (lt_of_le_of_ne hle (hkey q hq)), ?_⟩
      simp [hlt.ne]

variable (hs : m.Separate)

include hs

theorem lookup_of_mem (hx : x ∈ m) (hle : x.1 ≤ gpa) (hin : x.1 = gpa ∨ gpa < x.1 + x.2.2) :
    m.getHostPtrLocked gpa =
      if x.1 = gpa ∨ gpa < (x.1 + x.2.2) % 2 ^ 64 then some (x.2.1 + (gpa - x.1)) else none := by
  rcases lookup_cases hm gpa with ⟨y, hy, hyle, hmax, hlookup⟩ | ⟨hgt, -⟩
  · have hxy := hmax x hx hle
    have hdisj := hs.disjoint x hx y hy
    rwa [hm.eq_of_key hx hy (by omega)]
  · exact absurd (hgt x hx) hle.not_gt

theorem finds_of_found (hfound : ∀ x ∈ m, Found x) : m.Finds := by
  intro gpa _ p
  constructor
  · intro hsome
    rcases lookup_cases hm gpa with ⟨y, hy, hle, -, hlookup⟩ | ⟨-, hnone⟩
    · rw [hlookup, Option.ite_none_right_eq_some, Option.some_inj] at hsome
      have hpos := (hfound y hy).1
      have := Nat.mod_le (y.1 + y.2.2) (2 ^ 64)
      exact ⟨y, hy, ⟨hle, by omega⟩, hsome.2.symm⟩
    · rw [hnone] at hsome
      cases hsome
  · rintro ⟨x, hx, ⟨hle, hlt⟩, rfl⟩
    rw [lookup_of_mem hm hs hx hle (.inr hlt), if_pos]
    rcases (hfound x hx).2 with hfit | hone
    · rw [Nat.mod_eq_of_lt hfit]
      exact .inr hlt
    · exact .inl (by omega)

theorem found_of_finds (hfinds : m.Finds) (hx : x ∈ m) : Found x := by
  obtain ⟨hbase, hend⟩ := hs.le x hx
  have hpos : 0 < x.2.2 := by
    have hsome := lookup_of_mem hm hs hx le_rfl (.inl rfl)
    obtain ⟨y, hy, ⟨hle, hlt⟩, -⟩ := (hfinds x.1 hbase _).mp (hsome.trans (if_pos (.inl rfl)))
    have hdisj := hs.disjoint y hy x hx
    obtain rfl : y = x := hm.eq_of_key hy hx (by omega)
    omega
  refine ⟨hpos, ?_⟩
  by_contra! hnot
  -- the last address of the mapping is then the last of all
  have hlast := @lookup_of_mem m x (x.1 + x.2.2 - 1) hm hs hx (by omega) (.inr (by omega))
  rw [if_neg (by omega), (hfinds _ (by omega) _).mpr ⟨x, hx, ⟨by omega, by omega⟩, rfl⟩] at hlast
  cases hlast

theorem lookup_erase (hfound : ∀ x ∈ m, Found x) (hgpa : gpa < 2 ^ 64) (hx : x ∈ m)
    (hnot : ¬ InMapping x gpa) : getHostPtrLocked (erase m x.1) gpa = m.getHostPtrLocked gpa := by
  have hmem : ∀ y ∈ erase m x.1, y ∈ m := fun y hy => (mem_erase.mp hy).1
  have hs' : Separate (erase m x.1) :=
    ⟨fun y hy z hz => hs.disjoint y (hmem y hy) z (hmem z hz), fun y hy => hs.le y (hmem y hy)⟩
  ext p
  rw [finds_of_found (hm.erase x.1) hs' (fun y hy => hfound y (hmem y hy)) gpa hgpa,
    finds_of_found hm hs hfound gpa hgpa]
  constructor
  · rintro ⟨y, hy, hin⟩
    exact ⟨y, hmem y hy, hin⟩
  · rintro ⟨y, hy, hin, rfl⟩
    refine ⟨y, mem_erase.mpr ⟨hy, fun hkey => hnot ?_⟩, hin, rfl⟩
    rwa [← hm.eq_of_key hy hx hkey]

end

/-- The host pointers are right, and a removal changes only those of the addresses of its mapping,
just when no mapping is empty and only one of a single byte ends with the last address. -/
theorem getHostPtr_iff {ops : List MappingOp} (h : (run step [] ops).2 = .ok m) (hs : m.Separate) :
    (m.Finds ∧ ∀ x ∈ m, ∃ m', m.removeMemoryMappingLocked x.1 = .ok (m', true) ∧
        ∀ gpa < 2 ^ 64, ¬ InMapping x gpa → m'.getHostPtrLocked gpa = m.getHostPtrLocked gpa) ↔
      ∀ x ∈ m, Found x := by
  have hm := sorted_of_run h
  constructor
  · exact fun hfinds x hx => found_of_finds hm hs hfinds.1 hx
  · intro hfound
    refine ⟨finds_of_found hm hs hfound, fun x hx => ⟨erase m x.1, ?_, ?_⟩⟩
    · rw [removeMemoryMappingLocked, (get_eq_some hm).mpr hx]
      rfl
    · exact fun gpa hgpa hnot => lookup_erase hm hs hfound hgpa hx hnot

/-- An address in the second of two mappings. -/
theorem getHostPtr_iff_two :
    getHostPtrLocked [(0, 4096, 16), (32, 8192, 16)] 37 = some 8197 := by
  have hiff := @getHostPtr_iff [(0, 4096, 16), (32, 8192, 16)] [.add 0 4096 16, .add 32 8192 16] rfl
    ⟨by simp, by simp⟩
  have hfinds := (hiff.mpr (by simp [Found])).1
  exact (hfinds 37 (by decide) 8197).mpr ⟨_, .tail _ (.head _), ⟨by decide, by decide⟩, rfl⟩

/-- The last two addresses are mapped, and the last one is not found. -/
theorem getHostPtr_last_byte :
    (run step [] [.add (2 ^ 64 - 2) 4096 2]).2 = .ok [(2 ^ 64 - 2, 4096, 2)] ∧
      Separate [(2 ^ 64 - 2, 4096, 2)] ∧ InMapping (2 ^ 64 - 2, 4096, 2) (2 ^ 64 - 1) ∧
      getHostPtrLocked [(2 ^ 64 - 2, 4096, 2)] (2 ^ 64 - 1) = none :=
  ⟨rfl, ⟨by simp, by simp⟩, ⟨by decide, by decide⟩, by decide⟩

end MemoryMappings

end AndroidEmu.AddressSpace
