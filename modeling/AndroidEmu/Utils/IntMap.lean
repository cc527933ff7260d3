import AndroidEmu.CS.Memory

/-!
# Maps from integers to pointers

`AIntMap` of `android/utils/intmap.c`. `DUFF4` executes its statement four times for a count of
zero, so an empty map is searched in its first four slots. The search of `aintMap_getWithDefault`
goes one slot too far. `aintMap_grow` declares its arrays as `void*`, so that `AARRAY_RENEW`
allocates bytes and not slots; and nothing is copied from the arrays inside the map. A pointer is a
number, and `NULL` is zero.
-/

namespace AndroidEmu.Utils

open CS Checked Function List Option

/-! ### The map -/

/-- The arrays have the slots that are allocated, and are the ones inside the map or not. -/
structure AIntMap where
  size : ℤ
  capacity : ℕ
  keys : List ℤ
  values : List ℕ
  embedded : Bool
  deriving DecidableEq

/-- The arrays inside the map have `INIT_CAPACITY` slots. -/
def aintMapNew : AIntMap := ⟨0, 4, List.replicate 8 0, List.replicate 8 0, true⟩

/-- How often `DUFF4` executes its statement: up to the end of the loop body from where the
`switch` enters it, and then four times in each further round. -/
def duff4Times (count : ℤ) : ℕ :=
  let n := (count + 3).tdiv 4
  let entry := if count % 4 = 0 then 4 else (count % 4).toNat
  entry + 4 * (n - 1).toNat

/-- The statement that is executed: leave the loop if the key is at `index`, else go on. -/
def search (keys : List ℤ) (key : ℤ) : (times index : ℕ) → Checked (Option ℕ)
  | 0, _ => .ok none
  | times + 1, index => do
    let k ← readAt keys index
    if k = key then return some index else search keys key times (index + 1)

/-- An access to a slot with an `int`. -/
def slotAt (i : ℤ) : Checked ℕ := if 0 ≤ i then .ok i.toNat else .error .outOfBounds

/-- `realloc` of an array that is not inside the map. The contents of new slots are not defined;
nothing reads them before the write behind them. -/
def reallocate {α : Type} (xs : List α) (x : α) (embedded : Bool) (slots : ℕ) : List α :=
  let old := if embedded then [] else xs
  old.take slots ++ List.replicate (slots - old.length) x

namespace AIntMap

/-- `aintMap_getWithDefault`. -/
def getWithDefault (map : AIntMap) (key : ℤ) (default : ℕ) : Checked ℕ := do
  match ← search map.keys key (duff4Times (map.size + 1)) 0 with
  | some index => readAt map.values index
  | none => return default

/-- `aintMap_get`. -/
def get (map : AIntMap) (key : ℤ) : Checked ℕ := map.getWithDefault key 0

/-- A key has four bytes, a value eight. -/
def grow (map : AIntMap) : AIntMap :=
  let newCapacity :=
    if map.capacity < 256 then map.capacity * 2 else map.capacity + map.capacity / 4
  { map with
    keys := reallocate map.keys 0 map.embedded (newCapacity / 4)
    values := reallocate map.values 0 map.embedded (newCapacity / 8)
    capacity := newCapacity
    embedded := false }

/-- `aintMap_set`. -/
def set (map : AIntMap) (key : ℤ) (value : ℕ) : Checked (AIntMap × ℕ) := do
  match ← search map.keys key (duff4Times map.size) 0 with
  | some index =>
    let result ← readAt map.values index
    let values ← writeAt map.values index value
    return ({ map with values := values }, result)
  | none =>
    let map := if map.capacity ≤ map.size then map.grow else map
    let limit ← slotAt map.size
    let keys ← writeAt map.keys limit key
    let values ← writeAt map.values limit value
    return ({ map with keys := keys, values := values, size := map.size + 1 }, 0)

/-- `aintMap_del`. -/
def del (map : AIntMap) (key : ℤ) : Checked (AIntMap × ℕ) := do
  match ← search map.keys key (duff4Times map.size) 0 with
  | some index =>
    let result ← readAt map.values index
    if index + 1 < map.size then
      let last ← slotAt (map.size - 1)
      let lastKey ← readAt map.keys last
      let keys ← writeAt map.keys index lastKey
      let lastValue ← readAt map.values last
      let values ← writeAt map.values index lastValue
      return ({ map with keys := keys, values := values, size := map.size - 1 }, result)
    else return ({ map with size := map.size - 1 }, result)
  | none => return (map, 0)

/-- `aintMapIterator_next` for each index below the size. -/
def iterate (map : AIntMap) : Checked (List (ℤ × ℕ)) :=
  (List.range map.size.toNat).mapM fun index => do
    let key ← readAt map.keys index
    let value ← readAt map.values index
    return (key, value)

end AIntMap

inductive IntMapOp
  | set (key : ℤ) (value : ℕ)
  | get (key : ℤ)
  | getWithDefault (key : ℤ) (default : ℕ)
  | del (key : ℤ)
  | iterate
  deriving DecidableEq

inductive IntMapReply
  | value (v : ℕ)
  | pairs (ps : List (ℤ × ℕ))
  deriving DecidableEq

def AIntMap.exec (map : AIntMap) : IntMapOp → Checked (AIntMap × IntMapReply)
  | .set key value => do
    let (map, v) ← map.set key value
    return (map, .value v)
  | .get key => do
    let v ← map.get key
    return (map, .value v)
  | .getWithDefault key default => do
    let v ← map.getWithDefault key default
    return (map, .value v)
  | .del key => do
    let (map, v) ← map.del key
    return (map, .value v)
  | .iterate => do
    let ps ← map.iterate
    return (map, .pairs ps)

/-! ### The finite map -/

def IntMapOp.next (m : ℤ → Option ℕ) : IntMapOp → ℤ → Option ℕ
  | .set key value => Function.update m key (some value)
  | .del key => Function.update m key none
  | _ => m

/-- What an operation on the finite map returns. -/
def IntMapOp.Allows (m : ℤ → Option ℕ) : IntMapOp → IntMapReply → Prop
  | .set key _, r => r = .value ((m key).getD 0)
  | .get key, r => r = .value ((m key).getD 0)
  | .getWithDefault key default, r => r = .value ((m key).getD default)
  | .del key, r => r = .value ((m key).getD 0)
  | .iterate, r => ∃ ps, r = .pairs ps ∧ (ps.map Prod.fst).Nodup ∧
      ∀ key value, (key, value) ∈ ps ↔ m key = some value

def Counts (map : AIntMap) (m : ℤ → Option ℕ) : Prop :=
  ∃ live : Finset ℤ, (∀ key, key ∈ live ↔ (m key).isSome) ∧ map.size = live.card

/-- The map next to the finite map. -/
def intMapStep (s : AIntMap × (ℤ → Option ℕ)) (op : IntMapOp) :
    Checked ((AIntMap × (ℤ → Option ℕ)) × IntMapReply) := do
  let (map, r) ← s.1.exec op
  return ((map, op.next s.2), r)

/-- An operation returns what it returns for the finite map, with no access outside the arrays, and
the size is the number of keys. -/
def IntMapBehaves (s : AIntMap × (ℤ → Option ℕ)) (op : IntMapOp) : Prop :=
  ∃ map r, s.1.exec op = .ok (map, r) ∧ op.Allows s.2 r ∧ Counts map (op.next s.2)

/-- An operation does not meet what is left behind the pairs, and the map is not full. -/
def IntMapFits (s : AIntMap × (ℤ → Option ℕ)) : IntMapOp → Prop
  | .set key _ =>
    (s.1.size = 0 → key ∉ s.1.keys.take 4) ∧ (s.2 key = none → s.1.size < 4)
  | .get key => s.2 key = none → s.1.keys[s.1.size.toNat]? = some key →
    s.1.values[s.1.size.toNat]? = some 0
  | .getWithDefault key default => s.2 key = none → s.1.keys[s.1.size.toNat]? = some key →
    s.1.values[s.1.size.toNat]? = some default
  | .del key => s.1.size = 0 → key ∉ s.1.keys.take 4
  | .iterate => True

/-! ### Searches -/

theorem duff4Times_eq {count : ℤ} (h : 0 ≤ count) :
    duff4Times count = if count = 0 then 4 else count.toNat := by
  rw [duff4Times, Int.tdiv_eq_ediv_of_nonneg (by omega)]
  split_ifs <;> omega

theorem search_spec {keys : List ℤ} (key : ℤ) (times : ℕ) :
    ∀ {index : ℕ}, index + times ≤ keys.length →
      (∃ i, search keys key times index = .ok (some i) ∧ index ≤ i ∧ i < index + times ∧
          keys[i]? = some key ∧ ∀ j, index ≤ j → j < i → keys[j]? ≠ some key) ∨
        (search keys key times index = .ok none ∧
          ∀ j, index ≤ j → j < index + times → keys[j]? ≠ some key) := by
  induction times with
  | zero => exact fun _ => .inr ⟨rfl, fun j h h' => by omega⟩
  | succ times ih =>
    intro index hroom
    have hlt : index < keys.length := by omega
    have hget : keys[index]? = some keys[index] := getElem?_eq_getElem hlt
    rw [search, readAt_of_getElem? hget, ok_bind]
    by_cases hkey : keys[index] = key
    · rw [if_pos hkey]
      exact .inl ⟨index, rfl, le_rfl, by omega, by rw [hget, hkey], fun j h h' => by omega⟩
    rw [if_neg hkey]
    have hhere : keys[index]? ≠ some key := by
      rw [hget]
      exact fun h => hkey (some.inj h)
    have hbefore : ∀ {j}, index ≤ j → ¬ index + 1 ≤ j → keys[j]? ≠ some key := by
      intro j hj hj'
      obtain rfl : j = index := by omega
      exact hhere
    obtain ⟨i, hi, hle, hlt', hfound, hfirst⟩ | ⟨hnone, hall⟩ := @ih (index + 1) (by omega)
    · refine .inl ⟨i, hi, by omega, by omega, hfound, fun j hj hji => ?_⟩
      by_cases hj' : index + 1 ≤ j
      · exact hfirst j hj' hji
      · exact hbefore hj hj'
    · refine .inr ⟨hnone, fun j hj hjt => ?_⟩
      by_cases hj' : index + 1 ≤ j
      · exact hall j hj' (by omega)
      · exact hbefore hj hj'

/-! ### The pairs -/

/-- The first `n` slots of the arrays inside the map hold the pairs of the finite map. -/
structure Represents (n : ℕ) (map : AIntMap) (m : ℤ → Option ℕ) : Prop where
  size_eq : map.size = n
  le_four : n ≤ 4
  capacity_eq : map.capacity = 4
  length_keys : map.keys.length = 8
  length_values : map.values.length = 8
  embedded : map.embedded = true
  slot_inj : ∀ i j key, i < n → j < n → map.keys[i]? = some key → map.keys[j]? = some key → i = j
  eq_some_iff : ∀ key value, m key = some value ↔
    ∃ i < n, map.keys[i]? = some key ∧ map.values[i]? = some value

variable {i old n default : ℕ}

namespace Represents

variable {n : ℕ} {map : AIntMap} {m : ℤ → Option ℕ} {key : ℤ}

theorem new : Represents 0 aintMapNew fun _ => none where
  size_eq := rfl
  le_four := by omega
  capacity_eq := rfl
  length_keys := rfl
  length_values := rfl
  embedded := rfl
  slot_inj := by simp
  eq_some_iff := by simp

section

variable (h : Represents n map m)

include h

theorem lengths : map.keys.length = 8 ∧ map.values.length = 8 ∧ n ≤ 4 ∧ map.size = n :=
  ⟨h.length_keys, h.length_values, h.le_four, h.size_eq⟩

theorem eq_some_of_lt (hi : i < n) (hkey : map.keys[i]? = some key) :
    ∃ value, map.values[i]? = some value ∧ m key = some value := by
  have hlt : i < map.values.length := by
    have := h.lengths
    omega
  exact ⟨_, getElem?_eq_getElem hlt, (h.eq_some_iff _ _).mpr ⟨i, hi, hkey, getElem?_eq_getElem hlt⟩⟩

theorem eq_none (hall : ∀ i < n, map.keys[i]? ≠ some key) : m key = none := by
  by_contra hne
  obtain ⟨value, hvalue⟩ := ne_none_iff_exists'.mp hne
  obtain ⟨i, hi, hkey, -⟩ := (h.eq_some_iff _ _).mp hvalue
  exact hall i hi hkey

theorem mem_take : key ∈ map.keys.take n ↔ (m key).isSome := by
  rw [mem_iff_getElem?, isSome_iff_exists]
  constructor
  · rintro ⟨i, hi⟩
    have hlt : i < n := by
      by_contra hge
      rw [getElem?_take_eq_none (by omega)] at hi
      cases hi
    rw [getElem?_take_of_lt hlt] at hi
    obtain ⟨value, -, hvalue⟩ := h.eq_some_of_lt hlt hi
    exact ⟨value, hvalue⟩
  · rintro ⟨value, hvalue⟩
    obtain ⟨i, hi, hkey, -⟩ := (h.eq_some_iff _ _).mp hvalue
    exact ⟨i, by rw [getElem?_take_of_lt hi, hkey]⟩

theorem nodup : (map.keys.take n).Nodup := by
  rw [nodup_iff_getElem?_ne_getElem?]
  intro i j hij hj heq
  rw [length_take] at hj
  rw [getElem?_take_of_lt (by omega), getElem?_take_of_lt (by omega),
    getElem?_eq_getElem (by omega)] at heq
  have := h.slot_inj i j _ (by omega) (by omega) (getElem?_eq_getElem (by omega)) heq.symm
  omega

theorem counts : Counts map m := by
  refine ⟨(map.keys.take n).toFinset, fun key => ?_, ?_⟩
  · rw [List.mem_toFinset, h.mem_take]
  · have := h.lengths
    rw [h.size_eq, toFinset_card_of_nodup h.nodup, length_take, Nat.min_eq_left (by omega)]

theorem setValue (hi : i < n) (hkey : map.keys[i]? = some key) (value : ℕ) :
    Represents n { map with values := map.values.set i value }
      (Function.update m key (some value)) := by
  have hlt : i < map.values.length := by
    have := h.lengths
    omega
  refine { h with length_values := length_set.trans h.length_values, eq_some_iff := fun k v => ?_ }
  by_cases hk : k = key
  · subst hk
    rw [update_self]
    constructor
    · rintro ⟨⟩
      exact ⟨i, hi, hkey, getElem?_set_self hlt⟩
    · rintro ⟨j, hj, hkey', hvalue⟩
      obtain rfl := h.slot_inj i j k hi hj hkey hkey'
      rw [getElem?_set_self hlt] at hvalue
      exact hvalue
  · rw [update_of_ne hk, h.eq_some_iff]
    refine exists_congr fun j => and_congr_right fun _ => and_congr_right fun hkey' => ?_
    have hne : i ≠ j := by
      rintro rfl
      exact hk (some.inj (hkey'.symm.trans hkey))
    rw [getElem?_set_ne hne]

theorem ne_of_eq_none (hnone : m key = none) : ∀ i < n, map.keys[i]? ≠ some key := by
  intro i hi hkey
  obtain ⟨value, -, hvalue⟩ := h.eq_some_of_lt hi hkey
  rw [hnone] at hvalue
  cases hvalue

theorem slots_insert (hn : n < 4) (key : ℤ) (value : ℕ) :
    (map.keys.set n key)[n]? = some key ∧ (∀ j < n, (map.keys.set n key)[j]? = map.keys[j]?) ∧
      (map.values.set n value)[n]? = some value ∧
      ∀ j < n, (map.values.set n value)[j]? = map.values[j]? := by
  have := h.lengths
  exact ⟨getElem?_set_self (by omega), fun j hj => getElem?_set_ne (by omega),
    getElem?_set_self (by omega), fun j hj => getElem?_set_ne (by omega)⟩

theorem insert (hn : n < 4) (hnone : m key = none) (value : ℕ) : Represents (n + 1) { map with
        keys := map.keys.set n key
        values := map.values.set n value
        size := map.size + 1 } (Function.update m key (some value)) where
  size_eq := by
    rw [h.size_eq]
    push_cast
    rfl
  le_four := hn
  capacity_eq := h.capacity_eq
  length_keys := length_set.trans h.length_keys
  length_values := length_set.trans h.length_values
  embedded := h.embedded
  slot_inj i j k hi hj hkey hkey' := by
    obtain ⟨hself, hold, -⟩ := h.slots_insert hn key value
    have hnot := h.ne_of_eq_none hnone
    by_cases hin : i = n
    · by_cases hjn : j = n
      · rw [hin, hjn]
      · rw [hin, hself] at hkey
        rw [hold j (by omega), ← hkey] at hkey'
        exact absurd hkey' (hnot j (by omega))
    by_cases hjn : j = n
    · rw [hjn, hself] at hkey'
      rw [hold i (by omega), ← hkey'] at hkey
      exact absurd hkey (hnot i (by omega))
    · rw [hold i (by omega)] at hkey
      rw [hold j (by omega)] at hkey'
      exact h.slot_inj i j k (by omega) (by omega) hkey hkey'
  eq_some_iff k v := by
    obtain ⟨hself, hold, hvself, hvold⟩ := h.slots_insert hn key value
    have hnot := h.ne_of_eq_none hnone
    by_cases hk : k = key
    · subst hk
      rw [update_self]
      constructor
      · rintro ⟨⟩
        exact ⟨n, by omega, hself, hvself⟩
      · rintro ⟨j, hj, hkey', hvalue⟩
        by_cases hjn : j = n
        · rw [hjn, hvself] at hvalue
          exact hvalue
        · rw [hold j (by omega)] at hkey'
          exact absurd hkey' (hnot j (by omega))
    · rw [update_of_ne hk, h.eq_some_iff]
      constructor
      · rintro ⟨j, hj, hkey', hvalue⟩
        exact ⟨j, by omega, by rw [hold j hj, hkey'], by rw [hvold j hj, hvalue]⟩
      · rintro ⟨j, hj, hkey', hvalue⟩
        have hjn : j ≠ n := by
          rintro rfl
          exact hk (some.inj (hkey'.symm.trans hself))
        rw [hold j (by omega)] at hkey'
        rw [hvold j (by omega)] at hvalue
        exact ⟨j, by omega, hkey', hvalue⟩

omit h in
theorem remove (h : Represents (n + 1) map m) (hi : i < n + 1)
    (hkey : map.keys[i]? = some key) {map' : AIntMap} (hsize : map'.size = n)
    (hcapacity : map'.capacity = 4) (hembedded : map'.embedded = true)
    (hkeys : map'.keys.length = 8 ∧ ∀ j < n, map'.keys[j]? = map.keys[if j = i then n else j]?)
    (hvalues : map'.values.length = 8 ∧
      ∀ j < n, map'.values[j]? = map.values[if j = i then n else j]?) :
    Represents n map' (Function.update m key none) where
  size_eq := hsize
  le_four := by
    have := h.le_four
    omega
  capacity_eq := hcapacity
  length_keys := hkeys.1
  length_values := hvalues.1
  embedded := hembedded
  slot_inj j j' k hj hj' hk hk' := by
    rw [hkeys.2 j hj] at hk
    rw [hkeys.2 j' hj'] at hk'
    have hslot := h.slot_inj _ _ k (by split_ifs <;> omega) (by split_ifs <;> omega) hk hk'
    split_ifs at hslot <;> omega
  eq_some_iff k v := by
    by_cases hk : k = key
    · subst hk
      refine iff_of_false (by simp) ?_
      rintro ⟨j, hj, hkey', -⟩
      rw [hkeys.2 j hj] at hkey'
      -- no slot that is left had the key
      have hslot := h.slot_inj _ i k (by split_ifs <;> omega) hi hkey' hkey
      split_ifs at hslot <;> omega
    · rw [update_of_ne hk, h.eq_some_iff]
      constructor
      · rintro ⟨j, hj, hkey', hvalue⟩
        have hji : j ≠ i := by
          rintro rfl
          exact hk (some.inj (hkey'.symm.trans hkey))
        by_cases hjn : j = n
        · subst hjn
          refine ⟨i, by omega, ?_, ?_⟩
          · rw [hkeys.2 i (by omega), if_pos rfl, hkey']
          · rw [hvalues.2 i (by omega), if_pos rfl, hvalue]
        · refine ⟨j, by omega, ?_, ?_⟩
          · rw [hkeys.2 j (by omega), if_neg hji, hkey']
          · rw [hvalues.2 j (by omega), if_neg hji, hvalue]
      · rintro ⟨j, hj, hkey', hvalue⟩
        rw [hkeys.2 j hj] at hkey'
        rw [hvalues.2 j hj] at hvalue
        exact ⟨_, by split_ifs <;> omega, hkey', hvalue⟩

/-- What the search of `aintMap_set` and `aintMap_del` finds: a pair, or one of the first four slots
of an empty map, or nothing. -/
theorem search_size (key : ℤ) :
    (∃ i < n, ∃ value, search map.keys key (duff4Times map.size) 0 = .ok (some i) ∧
        map.keys[i]? = some key ∧ map.values[i]? = some value ∧ m key = some value) ∨
      (n = 0 ∧ key ∈ map.keys.take 4 ∧ ∃ i < 4, ∃ value,
        search map.keys key (duff4Times map.size) 0 = .ok (some i) ∧
        map.values[i]? = some value) ∨
      (search map.keys key (duff4Times map.size) 0 = .ok none ∧ m key = none ∧
        (n = 0 → key ∉ map.keys.take 4)) := by
  obtain ⟨hkeys, hvalues, hle, -⟩ := h.lengths
  have htimes : duff4Times map.size = if n = 0 then 4 else n := by
    rw [duff4Times_eq (by rw [h.size_eq]; omega), h.size_eq]
    simp
  rw [htimes]
  by_cases hn : n = 0
  · rw [if_pos hn]
    obtain ⟨i, hi, -, hlt, hkey, -⟩ | ⟨hnone, hall⟩ :=
      search_spec key 4 (show 0 + 4 ≤ map.keys.length by omega)
    · refine .inr (.inl ⟨hn, ?_, i, by omega, _, hi, getElem?_eq_getElem (by omega)⟩)
      exact mem_of_getElem? (i := i) (by rw [getElem?_take_of_lt (by omega), hkey])
    · refine .inr (.inr ⟨hnone, h.eq_none fun i hi => by omega, fun _ hmem => ?_⟩)
      obtain ⟨i, hi⟩ := mem_iff_getElem?.mp hmem
      have hlt : i < 4 := by
        by_contra hge
        rw [getElem?_take_eq_none (by omega)] at hi
        cases hi
      rw [getElem?_take_of_lt hlt] at hi
      exact hall i (by omega) (by omega) hi
  · rw [if_neg hn]
    obtain ⟨i, hi, -, hlt, hkey, -⟩ | ⟨hnone, hall⟩ :=
      search_spec key n (show 0 + n ≤ map.keys.length by omega)
    · obtain ⟨value, hvalue, hm⟩ := h.eq_some_of_lt (show i < n by omega) hkey
      exact .inl ⟨i, by omega, value, hi, hkey, hvalue, hm⟩
    · exact .inr (.inr ⟨hnone, h.eq_none fun i hi => hall i (by omega) (by omega),
        fun hzero => absurd hzero hn⟩)

end

end Represents

/-! ### Operations -/

/-- An operation that fits does what it does to the finite map, and one that does not fit does
not. -/
def Settled (map : AIntMap) (m : ℤ → Option ℕ) (op : IntMapOp) : Prop :=
  (IntMapFits (map, m) op → ∃ map' r n, map.exec op = .ok (map', r) ∧ op.Allows m r ∧
    Represents n map' (op.next m)) ∧
  (¬ IntMapFits (map, m) op → ¬ IntMapBehaves (map, m) op)

section Operations

variable {n : ℕ} {map : AIntMap} {m : ℤ → Option ℕ}

theorem Settled.of_ok {op : IntMapOp} {map' : AIntMap} {r : IntMapReply}
    (hfits : IntMapFits (map, m) op) (hexec : map.exec op = .ok (map', r)) (hallows : op.Allows m r)
    (hrep : Represents n map' (op.next m)) : Settled map m op :=
  ⟨fun _ => ⟨map', r, n, hexec, hallows, hrep⟩, fun hnot => absurd hfits hnot⟩

theorem not_counts_of_size_le (key : ℤ) (hsize : map.size ≤ 0) (hkey : (m key).isSome) :
    ¬ Counts map m := by
  rintro ⟨live, hlive, hcard⟩
  have hpos : 0 < live.card := Finset.card_pos.mpr ⟨key, (hlive key).mpr hkey⟩
  omega

variable {key : ℤ}

theorem set_of_found (hsearch : search map.keys key (duff4Times map.size) 0 = .ok (some i))
    (hold : map.values[i]? = some old) (value : ℕ) :
    map.exec (.set key value) =
      .ok ({ map with values := map.values.set i value }, .value old) := by
  have hset : map.set key value = .ok ({ map with values := map.values.set i value }, old) := by
    rw [AIntMap.set, hsearch, ok_bind]
    dsimp only
    rw [readAt_of_getElem? hold, ok_bind, writeAt_of_lt (List.getElem?_eq_some_iff.mp hold).1]
    rfl
  rw [AIntMap.exec, hset]
  rfl

theorem set_of_room (h : Represents n map m)
    (hsearch : search map.keys key (duff4Times map.size) 0 = .ok none) (hn : n < 4) (value : ℕ) :
    map.exec (.set key value) = .ok ({ map with
      keys := map.keys.set n key
      values := map.values.set n value
      size := map.size + 1 }, .value 0) := by
  have := h.lengths
  have hcapacity : ¬ (map.capacity : ℤ) ≤ map.size := by
    rw [h.capacity_eq, h.size_eq]
    omega
  have hslot : slotAt map.size = .ok n := by
    rw [slotAt, h.size_eq, if_pos (by omega), Int.toNat_natCast]
  rw [AIntMap.exec, AIntMap.set, hsearch, ok_bind]
  dsimp only
  rw [if_neg hcapacity, hslot, ok_bind, writeAt_of_lt (by omega), ok_bind, writeAt_of_lt (by omega)]
  rfl

theorem set_of_full (h : Represents 4 map m)
    (hsearch : search map.keys key (duff4Times map.size) 0 = .ok none) (value : ℕ) :
    map.exec (.set key value) = .error .outOfBounds := by
  have hslot : slotAt map.grow.size = .ok 4 := by
    rw [AIntMap.grow]
    rw [h.size_eq]
    rfl
  have hlength : map.grow.keys.length = 2 := by
    rw [AIntMap.grow, h.capacity_eq, h.embedded]
    rfl
  have hcapacity : (map.capacity : ℤ) ≤ map.size := by rw [h.capacity_eq, h.size_eq]
  rw [AIntMap.exec, AIntMap.set, hsearch, ok_bind]
  dsimp only
  rw [if_pos hcapacity, hslot, ok_bind, writeAt_of_le (by omega)]
  rfl

open IntMapOp

section

variable (h : Represents n map m)

include h

theorem set_settled (key : ℤ) (value : ℕ) : Settled map m (.set key value) := by
  have hsize := h.size_eq
  obtain ⟨i, hi, old, hsearch, hkey, hold, hm⟩ | ⟨hn, hmem, i, hi, old, hsearch, hold⟩ |
    ⟨hsearch, hm, hstale⟩ := h.search_size key
  · -- the value of a pair is replaced
    have hfits : IntMapFits (map, m) (.set key value) := by
      refine ⟨fun hzero => ?_, fun hnone => ?_⟩
      · dsimp only at hzero
        omega
      · dsimp only at hnone
        rw [hm] at hnone
        cases hnone
    refine .of_ok hfits (set_of_found hsearch hold value) ?_ (h.setValue hi hkey value)
    rw [Allows, hm]
    rfl
  · -- a slot of an empty map: the value is written, and the map stays empty
    refine ⟨fun hfits => absurd hmem (hfits.1 (by dsimp only; omega)), fun _ => ?_⟩
    rintro ⟨map', r, hexec, -, hcounts⟩
    rw [set_of_found hsearch hold] at hexec
    obtain ⟨rfl, -⟩ := pair_inj hexec
    refine not_counts_of_size_le key ?_ ?_ hcounts
    · dsimp only
      omega
    · rw [IntMapOp.next, update_self]
      rfl
  · by_cases hfull : n < 4
    · have hfits : IntMapFits (map, m) (.set key value) :=
        ⟨fun hzero => hstale (by dsimp only at hzero; omega), fun _ => by dsimp only; omega⟩
      refine .of_ok hfits (set_of_room h hsearch hfull value) ?_ (h.insert hfull hm value)
      rw [Allows, hm]
      rfl
    have hle := h.le_four
    obtain rfl : n = 4 := by omega
    refine ⟨fun hfits => absurd (hfits.2 hm) (by dsimp only; omega), fun _ => ?_⟩
    rintro ⟨map', r, hexec, -⟩
    rw [set_of_full h hsearch] at hexec
    cases hexec

omit h in
theorem del_of_found (hsearch : search map.keys key (duff4Times map.size) 0 = .ok (some i))
    (hold : map.values[i]? = some old) (hlast : ¬ (i : ℤ) + 1 < map.size) :
    map.exec (.del key) = .ok ({ map with size := map.size - 1 }, .value old) := by
  rw [AIntMap.exec, AIntMap.del, hsearch, ok_bind]
  dsimp only
  rw [readAt_of_getElem? hold, ok_bind, if_neg hlast]
  rfl

omit h in
theorem del_of_found_before (h : Represents (n + 1) map m)
    (hsearch : search map.keys key (duff4Times map.size) 0 = .ok (some i))
    (hold : map.values[i]? = some old) (hlast : i < n) :
    ∃ lastKey lastValue, map.keys[n]? = some lastKey ∧ map.values[n]? = some lastValue ∧
      map.exec (.del key) = .ok ({ map with
        keys := map.keys.set i lastKey
        values := map.values.set i lastValue
        size := map.size - 1 }, .value old) := by
  obtain ⟨hkeys, hvalues, hle, hsize⟩ := h.lengths
  have hslot : slotAt (map.size - 1) = .ok n := by
    rw [slotAt, if_pos (by omega)]
    congr 1
    omega
  have hkey : map.keys[n]? = some map.keys[n] := getElem?_eq_getElem (by omega)
  have hvalue : map.values[n]? = some map.values[n] := getElem?_eq_getElem (by omega)
  refine ⟨_, _, hkey, hvalue, ?_⟩
  rw [AIntMap.exec, AIntMap.del, hsearch, ok_bind]
  dsimp only
  rw [readAt_of_getElem? hold, ok_bind, if_pos (by omega), hslot, ok_bind,
    readAt_of_getElem? hkey, ok_bind, writeAt_of_lt (by omega), ok_bind,
    readAt_of_getElem? hvalue, ok_bind, writeAt_of_lt (by omega)]
  rfl

omit h in
theorem getElem?_set_moved {α : Type} {xs : List α} {x : α} (hi : i < xs.length)
    (hx : xs[n]? = some x) (j : ℕ) : (xs.set i x)[j]? = xs[if j = i then n else j]? := by
  split_ifs with hji
  · rw [hji, getElem?_set_self hi, hx]
  · rw [getElem?_set_ne (Ne.symm hji)]

theorem del_settled (key : ℤ) : Settled map m (.del key) := by
  obtain ⟨hkeys, hvalues, -, hsize⟩ := h.lengths
  obtain ⟨i, hi, old, hsearch, hkey, hold, hm⟩ | ⟨hn, hmem, i, hi, old, hsearch, hold⟩ |
    ⟨hsearch, hm, hstale⟩ := h.search_size key
  · obtain _ | n := n
    · omega
    have hle := h.le_four
    have hfits : IntMapFits (map, m) (.del key) := by
      intro hzero
      dsimp only at hzero
      omega
    have hallows : (del key).Allows m (.value old) := by
      rw [Allows, hm]
      rfl
    have hsize' : map.size - 1 = n := by omega
    by_cases hlast : i < n
    · -- the last pair moves to the slot
      obtain ⟨lastKey, lastValue, hlastKey, hlastValue, hexec⟩ :=
        del_of_found_before h hsearch hold hlast
      refine .of_ok hfits hexec hallows (h.remove hi hkey hsize' h.capacity_eq h.embedded ?_ ?_)
      · exact ⟨length_set.trans hkeys, fun j _ => getElem?_set_moved (by omega) hlastKey j⟩
      · exact ⟨length_set.trans hvalues, fun j _ => getElem?_set_moved (by omega) hlastValue j⟩
    · have hexec := del_of_found hsearch hold (by omega)
      refine .of_ok hfits hexec hallows (h.remove hi hkey hsize' h.capacity_eq h.embedded ?_ ?_)
      · exact ⟨hkeys, fun j hj => by rw [if_neg (by omega)]⟩
      · exact ⟨hvalues, fun j hj => by rw [if_neg (by omega)]⟩
  · -- a slot of an empty map: the size becomes negative
    refine ⟨fun hfits => absurd hmem (hfits (by dsimp only; omega)), fun _ => ?_⟩
    rintro ⟨map', r, hexec, -, live, -, hcard⟩
    rw [del_of_found hsearch hold (by omega)] at hexec
    obtain ⟨rfl, -⟩ := pair_inj hexec
    dsimp only at hcard
    omega
  · have hfits : IntMapFits (map, m) (.del key) :=
      fun hzero => hstale (by dsimp only at hzero; omega)
    have hexec : map.exec (.del key) = .ok (map, .value 0) := by
      rw [AIntMap.exec, AIntMap.del, hsearch]
      rfl
    have hnext : (del key).next m = m := by rw [IntMapOp.next, ← hm, update_eq_self]
    refine .of_ok hfits hexec ?_ (hnext.symm ▸ h)
    rw [Allows, hm]
    rfl

/-- What `aintMap_getWithDefault` returns: the value of the pair, or the value in the slot behind
the pairs if its key is there, or the default. -/
theorem getWithDefault_eq (key : ℤ) (default : ℕ) :
    map.getWithDefault key default = .ok ((m key).getD (
      if map.keys[n]? = some key then (map.values[n]?).getD 0 else default)) := by
  obtain ⟨hkeys, hvalues, hle, -⟩ := h.lengths
  have htimes : duff4Times (map.size + 1) = n + 1 := by
    rw [duff4Times_eq (by rw [h.size_eq]; omega), if_neg (by rw [h.size_eq]; omega), h.size_eq]
    omega
  rw [AIntMap.getWithDefault, htimes]
  obtain ⟨i, hi, -, hlt, hkey, hfirst⟩ | ⟨hnone, hall⟩ :=
    search_spec key (n + 1) (show 0 + (n + 1) ≤ map.keys.length by omega)
  · rw [hi, ok_bind]
    dsimp only
    by_cases hin : i = n
    · subst hin
      have hm : m key = none := h.eq_none fun j hj => hfirst j (by omega) hj
      have hvalue : map.values[i]? = some map.values[i] := getElem?_eq_getElem (by omega)
      rw [readAt_of_getElem? hvalue, hm, if_pos hkey, hvalue]
      rfl
    · obtain ⟨value, hvalue, hm⟩ := h.eq_some_of_lt (show i < n by omega) hkey
      rw [readAt_of_getElem? hvalue, hm]
      rfl
  · have hm : m key = none := h.eq_none fun j hj => hall j (by omega) (by omega)
    rw [hnone, hm, if_neg (hall n (by omega) (by omega))]
    rfl

theorem lookup_settled {op : IntMapOp} (hexec : map.exec op = do
      let v ← map.getWithDefault key default
      return (map, .value v))
    (hallows : ∀ r, op.Allows m r ↔ r = .value ((m key).getD default)) (hnext : op.next m = m)
    (hfits : IntMapFits (map, m) op ↔ (m key = none → map.keys[map.size.toNat]? = some key →
      map.values[map.size.toNat]? = some default)) : Settled map m op := by
  have hvalues := h.length_values
  have hle := h.le_four
  have hvalue : map.values[n]? = some map.values[n] := getElem?_eq_getElem (by omega)
  rw [getWithDefault_eq h] at hexec
  have hbehaves : IntMapBehaves (map, m) op → IntMapFits (map, m) op := by
    rintro ⟨map', r, hexec', hr, -⟩
    rw [hexec] at hexec'
    obtain ⟨-, rfl⟩ := pair_inj hexec'
    rw [hallows] at hr
    rw [hfits, h.size_eq, Int.toNat_natCast]
    intro hm hkey
    rw [hm, if_pos hkey, hvalue] at hr
    rw [hvalue]
    exact congrArg some (IntMapReply.value.inj hr)
  refine ⟨fun hf => ⟨map, _, n, hexec, ?_, hnext.symm ▸ h⟩, fun hnot hb => hnot (hbehaves hb)⟩
  rw [hallows]
  cases hm : m key with
  | some v => rfl
  | none =>
    rw [hfits, h.size_eq, Int.toNat_natCast] at hf
    split_ifs with hkey
    · rw [hf hm hkey]
      rfl
    · rfl

theorem iterate_settled : Settled map m .iterate := by
  obtain ⟨hkeys, hvalues, hle, -⟩ := h.lengths
  have hkey : ∀ i < n, map.keys[i]? = some (map.keys.getD i 0) := fun i hi => by
    rw [getD_eq_getElem?_getD, getElem?_eq_getElem (by omega), getD_some]
  have hvalue : ∀ i < n, map.values[i]? = some (map.values.getD i 0) := fun i hi => by
    rw [getD_eq_getElem?_getD, getElem?_eq_getElem (by omega), getD_some]
  have hiterate : map.iterate =
      .ok ((range n).map fun i => (map.keys.getD i 0, map.values.getD i 0)) := by
    rw [AIntMap.iterate, h.size_eq]
    apply mapM_eq_ok
    intro i hi
    have hlt := mem_range.mp hi
    rw [readAt_of_getElem? (hkey i hlt), ok_bind, readAt_of_getElem? (hvalue i hlt)]
    rfl
  refine .of_ok trivial (by rw [AIntMap.exec, hiterate]; rfl) ⟨_, rfl, ?_, fun key value => ?_⟩ h
  · rw [List.map_map]
    refine Nodup.map_on (fun i hi j hj hij => ?_) nodup_range
    have hi := mem_range.mp hi
    have hj := mem_range.mp hj
    have hij : map.keys.getD i 0 = map.keys.getD j 0 := hij
    exact h.slot_inj i j _ hi hj (hkey i hi) (hij ▸ hkey j hj)
  · rw [h.eq_some_iff, List.mem_map]
    constructor
    · rintro ⟨i, hi, hpair⟩
      have hi := mem_range.mp hi
      obtain ⟨rfl, rfl⟩ := Prod.mk.inj hpair
      exact ⟨i, hi, hkey i hi, hvalue i hi⟩
    · rintro ⟨i, hi, hk, hv⟩
      rw [hkey i hi] at hk
      rw [hvalue i hi] at hv
      exact ⟨i, mem_range.mpr hi, Prod.ext (some.inj hk) (some.inj hv)⟩

theorem settled (op : IntMapOp) : Settled map m op := by
  cases op with
  | set key value => exact set_settled h key value
  | get key => exact lookup_settled h rfl (fun _ => Iff.rfl) rfl Iff.rfl
  | getWithDefault key default => exact lookup_settled h rfl (fun _ => Iff.rfl) rfl Iff.rfl
  | del key => exact del_settled h key
  | iterate => exact iterate_settled h

end

end Operations

/-- In every sequence of operations on a new map, each one returns what it returns for a finite map
and leaves as many pairs, without an access outside the arrays, if and only if none of them meets a
key that is left behind the pairs, and there are never more than four pairs. -/
theorem intMap_behaves_iff (ops : List IntMapOp) :
    Meets intMapStep IntMapBehaves (aintMapNew, fun _ => none) ops ↔
      Meets intMapStep IntMapFits (aintMapNew, fun _ => none) ops := by
  have hiff : ∀ s op, (∃ n, Represents n s.1 s.2) → (IntMapBehaves s op ↔ IntMapFits s op) := by
    rintro ⟨map, m⟩ op ⟨n, h⟩
    obtain ⟨hfits, hnot⟩ := settled h op
    refine ⟨fun hb => by_contra fun hf => hnot hf hb, fun hf => ?_⟩
    obtain ⟨map', r, n', hexec, hallows, hrep⟩ := hfits hf
    exact ⟨map', r, hexec, hallows, hrep.counts⟩
  apply meets_congr (fun s => ∃ n, Represents n s.1 s.2) ops
  · exact fun s op _ hs => hiff s op hs
  · rintro ⟨map, m⟩ op _ s' r' ⟨n, h⟩ hb hstep
    obtain ⟨map', r, n', hexec, -, hrep⟩ := (settled h op).1 ((hiff _ op ⟨n, h⟩).mp hb)
    rw [intMapStep, hexec] at hstep
    obtain ⟨rfl, -⟩ := pair_inj hstep
    exact ⟨n', hrep⟩
  · exact ⟨0, .new⟩

/-- A deleted key is found behind the pairs; the key zero is found in the slots of an empty map; and
a fifth pair is written outside the new array. -/
theorem stale_keys_are_found :
    ¬ Meets intMapStep IntMapBehaves (aintMapNew, fun _ => none) [.set 1 7, .del 1, .get 1] ∧
      ¬ Meets intMapStep IntMapBehaves (aintMapNew, fun _ => none) [.set 0 7] ∧
      (run AIntMap.exec aintMapNew [.set 1 7, .set 2 7, .set 3 7, .set 4 7, .set 5 7]).2 =
        .error .outOfBounds := by
  refine ⟨fun hmeets => ?_, fun hmeets => ?_, by decide +kernel⟩
  · obtain ⟨map, r, hexec, hallows, -⟩ := ((hmeets.2 _ _ rfl).2 _ _ rfl).1
    obtain ⟨-, rfl⟩ := pair_inj hexec
    have hvalue : (7 : ℕ) = 0 := IntMapReply.value.inj hallows
    omega
  · obtain ⟨map, r, hexec, -, hcounts⟩ := hmeets.1
    obtain ⟨rfl, -⟩ := pair_inj hexec
    exact not_counts_of_size_le 0 (by decide +kernel) rfl hcounts

end AndroidEmu.Utils
