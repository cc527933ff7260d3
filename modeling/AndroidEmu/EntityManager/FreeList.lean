import AndroidEmu.CS.SinglyLinked
import AndroidEmu.EntityManager.Manager

/-!
# The free list of the entity manager

The links from `mFirstFreeIndex` on pass every entry that is not live, once, and end at the size of
the array, where the new entries begin when it grows. Entries beyond the indices a handle can name
stay at the end of the list for ever.
-/

namespace AndroidEmu.EntityManager

open CS List Option Layout

variable {l : Layout} {Item : Type}

/-- What decides whether an entry is live. -/
def Entry.key (e : Entry Item) : Handle × ℕ := (e.handle, e.liveGeneration)

namespace Manager

/-- The free indices, in the order of the list. -/
structure Holds (m : Manager l Item) (free : List ℕ) : Prop where
  path : Path (fun i => some (m.nextFree i)) (some m.firstFreeIndex) free (some m.entries.length)
  nodup : free.Nodup
  mem_free : ∀ i, i ∈ free ↔ i < m.entries.length ∧ m.liveAt i = false
  index_eq : ∀ (i : ℕ) (e : Entry Item), m.entries[i]? = some e → i < l.maxElements →
    l.getHandleIndex e.handle = i
  generation_lt : ∀ (i : ℕ) (e : Entry Item), m.entries[i]? = some e →
    e.liveGeneration < l.generations
  generation_pos : ∀ (i : ℕ) (e : Entry Item), i ∈ free → m.entries[i]? = some e →
    0 < e.liveGeneration
  high : ∃ low, free = low ++ List.range' l.maxElements (m.entries.length - l.maxElements) ∧
    ∀ i ∈ low, i < l.maxElements
  count : m.liveEntries + free.length = m.entries.length

/-! ### Keys -/

section Keys

variable {m m' : Manager l Item} {i : ℕ} {e : Entry Item}

theorem liveAt_congr (h : m'.entries[i]?.map Entry.key = m.entries[i]?.map Entry.key) :
    m'.liveAt i = m.liveAt i := by
  have hkey : ∀ m : Manager l Item, m.liveAt i = (m.entries[i]?.map Entry.key).any fun k =>
      l.getHandleIndex k.1 = i && l.getHandleGeneration k.1 = k.2 := by
    intro m
    unfold liveAt
    cases m.entries[i]? with
    | none => rfl
    | some e => rfl
  rw [hkey, hkey, h]

theorem exists_of_key (h : m'.entries[i]?.map Entry.key = m.entries[i]?.map Entry.key)
    (he : m'.entries[i]? = some e) :
    ∃ e0, m.entries[i]? = some e0 ∧ e0.handle = e.handle ∧ e0.liveGeneration =
      e.liveGeneration := by
  rw [he] at h
  obtain ⟨e0, he0, hkey⟩ := map_eq_some_iff.mp h.symm
  exact ⟨e0, he0, congrArg Prod.fst hkey, congrArg Prod.snd hkey⟩

theorem lt_length_of_entry (he : m.entries[i]? = some e) : i < m.entries.length :=
  (List.getElem?_eq_some_iff.mp he).1

end Keys

namespace Holds

variable {m m' : Manager l Item} {free : List ℕ} {i : ℕ} {e e' : Entry Item}

theorem exists_entry (h : m.Holds free) (hi : i ∈ free) : ∃ e, m.entries[i]? = some e :=
  ⟨_, getElem?_eq_getElem ((h.mem_free i).mp hi).1⟩

theorem not_mem_of_liveAt (h : m.Holds free) (hlive : m.liveAt i = true) : i ∉ free := by
  intro hi
  rw [((h.mem_free i).mp hi).2] at hlive
  cases hlive

theorem lt_of_liveAt (hlive : m.liveAt i = true) : i < m.entries.length := by
  obtain ⟨-, e, he, -⟩ := exists_of_liveAt hlive
  exact lt_length_of_entry he

theorem live_lt (h : m.Holds free) (hi : i ∈ free) (hmax : i < l.maxElements) :
    m.liveEntries < l.maxElements := by
  obtain ⟨low, hfree, hlow⟩ := h.high
  have hcount := h.count
  have hmem : i ∈ low := by
    rw [hfree, mem_append, mem_range'_1] at hi
    exact hi.resolve_right fun hhigh => by omega
  have hpos := length_pos_of_mem hmem
  rw [hfree, length_append, length_range'] at hcount
  omega

/-- When every index that a handle can name is taken, or the list starts beyond them, they
are all live. -/
theorem all_live (h : m.Holds free)
    (hfull : m.liveEntries = l.maxElements ∨ l.maxElements < m.firstFreeIndex + 1) (i : ℕ)
    (hi : i < l.maxElements) : m.liveAt i = true := by
  obtain ⟨low, hfree, hlow⟩ := h.high
  -- nothing is free below
  have hnil : low = [] := by
    cases low with
    | nil => rfl
    | cons j low =>
      have hj := hlow j mem_cons_self
      rcases hfull with hfull | hfull
      · have := h.live_lt (i := j) (by rw [hfree]; exact mem_append_left _ mem_cons_self) hj
        omega
      · have hpath := h.path
        rw [hfree] at hpath
        have := some.inj hpath.1
        omega
  have hlen : l.maxElements ≤ m.entries.length := by
    have hcount := h.count
    have hpath := h.path
    rw [hfree, hnil, nil_append] at hcount hpath
    rcases hfull with hfull | hfull
    · rw [length_range'] at hcount
      omega
    · by_contra hlt
      rw [Nat.sub_eq_zero_of_le (by omega)] at hpath
      have : m.firstFreeIndex = m.entries.length := some.inj hpath
      omega
  by_contra hdead
  have hmem := (h.mem_free i).mpr ⟨by omega, by simpa using hdead⟩
  rw [hfree, hnil, nil_append, mem_range'_1] at hmem
  omega

theorem live_count (h : m.Holds free) :
    m.liveEntries = ((range m.entries.length).filter m.liveAt).length := by
  have hperm : free.Perm ((range m.entries.length).filter fun i => !m.liveAt i) := by
    apply (perm_ext_iff_of_nodup h.nodup (nodup_range.filter _)).mpr
    intro i
    rw [h.mem_free, mem_filter]
    simp
  have hsplit := length_eq_length_filter_add (l := range m.entries.length) m.liveAt
  have hcount := h.count
  rw [hperm.length_eq] at hcount
  rw [length_range] at hsplit
  omega

/-! ### One entry changes -/

section Change

variable (hother : ∀ j, j ≠ i → m'.entries[j]?.map Entry.key = m.entries[j]?.map Entry.key)
  (hlen : m'.entries.length = m.entries.length) (he' : m'.entries[i]? = some e')
  (hindex : l.getHandleIndex e'.handle = i)

section

variable (h : m.Holds free)

include h

include hother he' hindex in
theorem index_eq_of_change :
    ∀ j e, m'.entries[j]? = some e → j < l.maxElements → l.getHandleIndex e.handle = j := by
  intro j e he hj
  by_cases hji : j = i
  · subst hji
    rw [he'] at he
    obtain rfl := some.inj he
    exact hindex
  · obtain ⟨e0, he0, hhandle, -⟩ := exists_of_key (hother j hji) he
    rw [← hhandle]
    exact h.index_eq j e0 he0 hj

include hother he' in
theorem generation_lt_of_change (hlt : e'.liveGeneration < l.generations) :
    ∀ (j : ℕ) (e : Entry Item), m'.entries[j]? = some e → e.liveGeneration < l.generations := by
  intro j e he
  by_cases hji : j = i
  · subst hji
    rw [he'] at he
    obtain rfl := some.inj he
    exact hlt
  · obtain ⟨e0, he0, -, hgen⟩ := exists_of_key (hother j hji) he
    rw [← hgen]
    exact h.generation_lt j e0 he0

include hother he' hindex hlen in
theorem occupy (hbits : 2 ≤ l.generationBits) (hi : i ∈ free)
    (hmax : i < l.maxElements) (hgen : l.getHandleGeneration e'.handle = e'.liveGeneration)
    (hpath : Path (fun i => some (m'.nextFree i)) (some m'.firstFreeIndex) (free.erase i)
      (some m'.entries.length))
    (hcount : m'.liveEntries = wrapNat 64 (m.liveEntries + 1)) : m'.Holds (free.erase i) where
  path := hpath
  nodup := h.nodup.erase i
  mem_free j := by
    rw [h.nodup.mem_erase_iff, h.mem_free, hlen]
    by_cases hji : j = i
    · subst hji
      have hlive := (liveAt_of_entry he').mpr ⟨hindex, hgen⟩
      simp [hlive]
    · rw [liveAt_congr (hother j hji)]
      simp [hji]
  index_eq := h.index_eq_of_change hother he' hindex
  generation_lt := h.generation_lt_of_change hother he' (hgen ▸ l.getHandleGeneration_lt _)
  generation_pos j e hj he := by
    obtain ⟨hji, hj⟩ := h.nodup.mem_erase_iff.mp hj
    obtain ⟨e0, he0, -, hgen⟩ := exists_of_key (hother j hji) he
    rw [← hgen]
    exact h.generation_pos j e0 hj he0
  high := by
    obtain ⟨low, hfree, hlow⟩ := h.high
    have hmem : i ∈ low := by
      rw [hfree, mem_append, mem_range'_1] at hi
      exact hi.resolve_right fun hhigh => by omega
    refine ⟨low.erase i, ?_, fun j hj => hlow j (mem_of_mem_erase hj)⟩
    rw [hfree, erase_append_left _ hmem, hlen]
  count := by
    have htotal := l.total
    have hlt := h.live_lt hi hmax
    have hpow : l.maxElements < 2 ^ 64 := Nat.pow_lt_pow_right (by decide) (by omega)
    have hpos := length_pos_of_mem hi
    have hold := h.count
    rw [hcount, wrapNat_of_lt (by omega), length_erase_of_mem hi, hlen]
    omega

include hother he' hindex hlen in
theorem release (hlive : m.liveAt i = true)
    (hgen : l.getHandleGeneration e'.handle ≠ e'.liveGeneration)
    (hlt : e'.liveGeneration < l.generations) (hpos : 0 < e'.liveGeneration)
    (hpath : Path (fun i => some (m'.nextFree i)) (some m'.firstFreeIndex) (i :: free)
      (some m'.entries.length))
    (hcount : m'.liveEntries = subNat 64 m.liveEntries 1)
    (hsize : m.liveEntries < 2 ^ 64) : m'.Holds (i :: free) where
  path := hpath
  nodup := nodup_cons.mpr ⟨h.not_mem_of_liveAt hlive, h.nodup⟩
  mem_free j := by
    rw [mem_cons, h.mem_free, hlen]
    by_cases hji : j = i
    · subst hji
      have hdead : m'.liveAt j = false := by
        rw [← Bool.not_eq_true, liveAt_of_entry he']
        exact fun hl => hgen hl.2
      simp [hdead, lt_of_liveAt hlive]
    · rw [liveAt_congr (hother j hji)]
      simp [hji]
  index_eq := h.index_eq_of_change hother he' hindex
  generation_lt := h.generation_lt_of_change hother he' hlt
  generation_pos j e hj he := by
    by_cases hji : j = i
    · subst hji
      rw [he'] at he
      obtain rfl := some.inj he
      exact hpos
    · obtain ⟨e0, he0, -, hgen⟩ := exists_of_key (hother j hji) he
      rw [← hgen]
      exact h.generation_pos j e0 ((mem_cons.mp hj).resolve_left hji) he0
  high := by
    obtain ⟨low, hfree, hlow⟩ := h.high
    refine ⟨i :: low, by rw [hfree, hlen, cons_append], ?_⟩
    intro j hj
    rcases mem_cons.mp hj with rfl | hj
    · exact (exists_of_liveAt hlive).1
    · exact hlow j hj
  count := by
    -- a live entry is counted: the free ones are not all
    have hfree : (i :: free).length ≤ m.entries.length := by
      have hnodup := nodup_cons.mpr ⟨h.not_mem_of_liveAt hlive, h.nodup⟩
      have hsub : (i :: free) ⊆ range m.entries.length := by
        intro j hj
        rw [mem_range]
        rcases mem_cons.mp hj with rfl | hj
        · exact lt_of_liveAt hlive
        · exact ((h.mem_free j).mp hj).1
      simpa using (hnodup.subperm hsub).length_le
    have hold := h.count
    rw [length_cons] at hfree ⊢
    rw [hcount, subNat_of_le (by omega) hsize, hlen]
    omega

include hother he' hindex hlen in
theorem replace (hlive : m.liveAt i = true)
    (hgen : l.getHandleGeneration e'.handle = e'.liveGeneration)
    (hnext : ∀ j ∈ free, m'.nextFree j = m.nextFree j)
    (hfirst : m'.firstFreeIndex = m.firstFreeIndex)
    (hcount : m'.liveEntries = m.liveEntries) : m'.Holds free where
  path := by
    rw [hfirst, hlen]
    exact h.path.congr fun j hj => congrArg some (hnext j hj)
  nodup := h.nodup
  mem_free j := by
    rw [h.mem_free, hlen]
    by_cases hji : j = i
    · subst hji
      rw [(liveAt_of_entry he').mpr ⟨hindex, hgen⟩, hlive]
    · rw [liveAt_congr (hother j hji)]
  index_eq := h.index_eq_of_change hother he' hindex
  generation_lt := h.generation_lt_of_change hother he' (hgen ▸ l.getHandleGeneration_lt _)
  generation_pos j e hj he := by
    have hji : j ≠ i := by
      rintro rfl
      exact h.not_mem_of_liveAt hlive hj
    obtain ⟨e0, he0, -, hgen⟩ := exists_of_key (hother j hji) he
    rw [← hgen]
    exact h.generation_pos j e0 hj he0
  high := by
    rw [hlen]
    exact h.high
  count := by
    rw [hcount, hlen]
    exact h.count

end

end Change

/-! ### All entries are free -/

theorem of_reset (hbits : 2 ≤ l.generationBits) (es : List (Entry Item))
    (hgen : ∀ e ∈ es, e.liveGeneration < l.generations) :
    (⟨es.mapIdx l.reset, 0, 0⟩ : Manager l Item).Holds (range es.length) := by
  have hentry : ∀ (i : ℕ) (e : Entry Item), (es.mapIdx l.reset)[i]? = some e →
      ∃ e0 ∈ es, e = l.reset i e0 := by
    intro i e he
    rw [getElem?_mapIdx, map_eq_some_iff] at he
    obtain ⟨e0, he0, rfl⟩ := he
    exact ⟨e0, mem_of_getElem? he0, rfl⟩
  have hdead : ∀ i, (⟨es.mapIdx l.reset, 0, 0⟩ : Manager l Item).liveAt i = false := by
    intro i
    rw [← Bool.not_eq_true]
    intro hlive
    obtain ⟨hmax, e, he, hindex, hgeneration⟩ := exists_of_liveAt hlive
    obtain ⟨e0, he0, rfl⟩ := hentry i e he
    -- the handle has generation zero, the entry does not
    have hpos := (bump_spec hbits (hgen e0 he0)).2.1
    have hfour := four_le_generations hbits
    dsimp only [reset] at hgeneration
    rw [getHandleGeneration_makeHandle hmax (by omega)] at hgeneration
    omega
  constructor
  case path =>
    rw [range_eq_range']
    have hnext : ∀ i, 0 ≤ i → i < 0 + es.length →
        some ((⟨es.mapIdx l.reset, 0, 0⟩ : Manager l Item).nextFree i) = some (i + 1) := by
      intro i _ hi
      have he : (es.mapIdx l.reset)[i]? = some (l.reset i (es.get ⟨i, by omega⟩)) := by
        rw [getElem?_mapIdx, getElem?_eq_getElem (by omega)]
        rfl
      rw [nextFree_of_entry he]
      rfl
    simpa using Path.range' hnext
  case nodup => exact nodup_range
  case mem_free =>
    simp [hdead]
  case index_eq =>
    intro i e he hi
    obtain ⟨e0, -, rfl⟩ := hentry i e he
    exact getHandleIndex_makeHandle hi 1
  case generation_lt =>
    intro i e he
    obtain ⟨e0, he0, rfl⟩ := hentry i e he
    exact (bump_spec hbits (hgen e0 he0)).1
  case generation_pos =>
    intro i e _ he
    obtain ⟨e0, he0, rfl⟩ := hentry i e he
    exact (bump_spec hbits (hgen e0 he0)).2.1
  case high =>
    refine ⟨range (min es.length l.maxElements), ?_, ?_⟩
    · dsimp only
      rw [length_mapIdx]
      rcases le_total es.length l.maxElements with hle | hle
      · rw [min_eq_left hle, Nat.sub_eq_zero_of_le hle, range'_zero, append_nil]
      · rw [min_eq_right hle, range_eq_range', range_eq_range']
        have happ := range'_append_1 (s := 0) (m := l.maxElements) (n := es.length - l.maxElements)
        rw [Nat.zero_add, Nat.add_sub_cancel' hle] at happ
        exact happ.symm
    · intro i hi
      rw [mem_range] at hi
      omega
  case count => simp

end Holds

section Grow

variable [Inhabited Item] {m : Manager l Item} {free : List ℕ}

theorem reserve_all (m : Manager l Item) :
    (m.reserve m.entries.length).entries = m.entries.mapIdx l.reset := by
  simp only [reserve, Nat.sub_self, replicate_zero, append_nil]
  apply ext_getElem?
  intro i
  rw [getElem?_mapIdx, getElem?_mapIdx]
  cases he : m.entries[i]? with
  | none => rfl
  | some e => rw [map_some, map_some, if_pos (lt_length_of_entry he)]

theorem Holds.new (hbits : 2 ≤ l.generationBits) (initialItems : ℕ) :
    (Manager.new l initialItems : Manager l Item).Holds (range initialItems) := by
  have hfour := four_le_generations hbits
  have hreset := reserve_all
    (⟨.replicate initialItems Entry.fresh, 0, 0⟩ : Manager l Item)
  have hholds := Holds.of_reset hbits (replicate initialItems (Entry.fresh : Entry Item))
    (by
      intro e he
      rw [eq_of_mem_replicate he]
      show 1 < l.generations
      omega)
  rw [← hreset, length_replicate] at hholds
  exact hholds

theorem Holds.clear (hbits : 2 ≤ l.generationBits) (h : m.Holds free) :
    m.clear.Holds (range m.entries.length) := by
  have hholds := Holds.of_reset hbits m.entries (by
    intro e he
    obtain ⟨i, hi⟩ := mem_iff_getElem?.mp he
    exact h.generation_lt i e hi)
  rw [← reserve_all] at hholds
  exact hholds

theorem getElem?_freshEntries (i count type j : ℕ) :
    (l.freshEntries i count type : List (Entry Item))[j]? = if j < count then
        some { Entry.fresh with
          handle := l.makeHandle (i + j) 0 type
          nextFreeIndex := i + j + 1 }
      else none := by
  unfold freshEntries
  rw [getElem?_map]
  split_ifs with hj
  · rw [getElem?_range' hj]
    simp
  · rw [getElem?_eq_none (by simpa using hj)]
    rfl

/-- What `ensureCapacity` does. -/
structure Grown (m m' : Manager l Item) (free : List ℕ) (newIndex : ℕ) : Prop where
  holds : ∃ more, m'.Holds (free ++ more)
  lt_length : newIndex < m'.entries.length
  getElem? : ∀ i, i < m.entries.length → m'.entries[i]? = m.entries[i]?
  liveAt : ∀ i, m'.liveAt i = m.liveAt i
  first : m'.firstFreeIndex = m.firstFreeIndex
  live : m'.liveEntries = m.liveEntries

/-- The entries up to `next` were appended, each free and linked to the one behind it. -/
structure Appended (m m' : Manager l Item) (next type : ℕ) : Prop where
  length_eq : m'.entries.length = next
  old : ∀ i, i < m.entries.length → m'.entries[i]? = m.entries[i]?
  new : ∀ i, m.entries.length ≤ i → i < next → m'.entries[i]? =
    some { Entry.fresh with handle := l.makeHandle i 0 type, nextFreeIndex := i + 1 }
  firstFreeIndex : m'.firstFreeIndex = m.firstFreeIndex
  liveEntries : m'.liveEntries = m.liveEntries

section Appended

variable {m' : Manager l Item} {next type : ℕ}

theorem appended (hle : m.entries.length ≤ next) (type : ℕ) : Appended m { m with
    entries := m.entries ++ l.freshEntries m.entries.length (next - m.entries.length) type }
    next type where
  length_eq := by
    simp only [length_append, freshEntries, length_map, length_range']
    omega
  old i hi := getElem?_append_left hi
  new i hi hlt := by
    have hidx : m.entries.length + (i - m.entries.length) = i := by omega
    rw [getElem?_append_right hi, getElem?_freshEntries, if_pos (by omega), hidx]
  firstFreeIndex := rfl
  liveEntries := rfl

theorem Appended.entry_cases (ha : Appended m m' next type) {i : ℕ} {e : Entry Item}
    (he : m'.entries[i]? = some e) : i < m.entries.length ∧ m.entries[i]? = some e ∨
      { Entry.fresh with handle := l.makeHandle i 0 type, nextFreeIndex := i + 1 } = e := by
  by_cases hlt : i < m.entries.length
  · exact .inl ⟨hlt, ha.old i hlt ▸ he⟩
  · have hi := lt_length_of_entry he
    rw [ha.length_eq] at hi
    exact .inr (some.inj ((ha.new i (by omega) hi).symm.trans he))

theorem Appended.liveAt_eq_false (ha : Appended m m' next type) (hbits : 2 ≤ l.generationBits)
    (hnext : next ≤ l.maxElements) {i : ℕ} (hi : m.entries.length ≤ i) : m'.liveAt i = false := by
  by_cases hlt : i < next
  · rw [← Bool.not_eq_true, liveAt_of_entry (ha.new i hi hlt)]
    rintro ⟨-, hgen⟩
    have hfour := four_le_generations hbits
    rw [getHandleGeneration_makeHandle (by omega) (by omega)] at hgen
    simp [Entry.fresh] at hgen
  · exact liveAt_of_none (getElem?_eq_none (by rw [ha.length_eq]; omega))

theorem Appended.liveAt_eq (ha : Appended m m' next type) (hbits : 2 ≤ l.generationBits)
    (hnext : next ≤ l.maxElements) (i : ℕ) : m'.liveAt i = m.liveAt i := by
  by_cases hi : i < m.entries.length
  · exact liveAt_congr (by rw [ha.old i hi])
  · rw [ha.liveAt_eq_false hbits hnext (by omega), liveAt_of_none (getElem?_eq_none (by omega))]

/-- The old list ends where the new entries begin. -/
theorem Appended.path (ha : Appended m m' next type) (hle : m.entries.length ≤ next)
    (h : m.Holds free) : Path (fun i => some (m'.nextFree i)) (some m'.firstFreeIndex)
      (free ++ range' m.entries.length (next - m.entries.length)) (some m'.entries.length) := by
  have hpath : Path (fun i => some (m'.nextFree i)) (some m.firstFreeIndex) free
      (some m.entries.length) := by
    apply h.path.congr
    intro i hi
    rw [nextFree, nextFree, ha.old i ((h.mem_free i).mp hi).1]
  have hrange : ∀ i, m.entries.length ≤ i →
      i < m.entries.length + (next - m.entries.length) → some (m'.nextFree i) = some (i + 1) := by
    intro i hi hlt
    rw [nextFree_of_entry (ha.new i hi (by omega))]
  rw [ha.firstFreeIndex, ha.length_eq, show next = m.entries.length + (next - m.entries.length) by
    omega]
  exact hpath.append (by simpa using Path.range' hrange)

theorem Appended.holds (ha : Appended m m' next type) (hbits : 2 ≤ l.generationBits)
    (hle : m.entries.length ≤ next) (hnext : next ≤ l.maxElements) (h : m.Holds free) :
    m'.Holds (free ++ range' m.entries.length (next - m.entries.length)) := by
  have hlen := ha.length_eq
  have hbelow : ∀ i ∈ free, i < m.entries.length := fun i hi => ((h.mem_free i).mp hi).1
  constructor
  case path => exact ha.path hle h
  case nodup =>
    rw [nodup_append]
    refine ⟨h.nodup, nodup_range', ?_⟩
    intro i hi j hj
    rw [mem_range'_1] at hj
    have := hbelow i hi
    omega
  case mem_free =>
    intro i
    rw [mem_append, h.mem_free, mem_range'_1, ha.liveAt_eq hbits hnext]
    constructor
    · rintro (⟨hi, hd⟩ | ⟨hi, hlt⟩)
      · exact ⟨by omega, hd⟩
      · exact ⟨by omega, ha.liveAt_eq hbits hnext i ▸ ha.liveAt_eq_false hbits hnext hi⟩
    · rintro ⟨hi, hd⟩
      by_cases hlt : i < m.entries.length
      · exact .inl ⟨hlt, hd⟩
      · exact .inr (by omega)
  case index_eq =>
    intro i e he hi
    rcases ha.entry_cases he with ⟨-, he⟩ | rfl
    · exact h.index_eq i e he hi
    · exact getHandleIndex_makeHandle hi type
  case generation_lt =>
    intro i e he
    rcases ha.entry_cases he with ⟨-, he⟩ | rfl
    · exact h.generation_lt i e he
    · have hfour := four_le_generations hbits
      show 1 < l.generations
      omega
  case generation_pos =>
    intro i e hi he
    rcases ha.entry_cases he with ⟨hlt, he⟩ | rfl
    · have hmem : i ∈ free := by
        rw [mem_append, mem_range'_1] at hi
        exact hi.resolve_right fun hr => by omega
      exact h.generation_pos i e hmem he
    · exact Nat.one_pos
  case high =>
    refine ⟨free ++ range' m.entries.length (next - m.entries.length), ?_, ?_⟩
    · rw [hlen, Nat.sub_eq_zero_of_le hnext, range'_zero, append_nil]
    · intro i hi
      rw [mem_append, mem_range'_1] at hi
      rcases hi with hi | hi
      · have := hbelow i hi
        omega
      · omega
  case count =>
    have := h.count
    rw [length_append, length_range', ha.liveEntries]
    omega

end Appended

theorem Holds.ensureCapacity (hbits : 2 ≤ l.generationBits) (h : m.Holds free) {newIndex : ℕ}
    (hmax : newIndex < l.maxElements) (type : ℕ) :
    Grown m (m.ensureCapacity newIndex type) free newIndex := by
  unfold Manager.ensureCapacity
  dsimp only
  split_ifs with hgrow
  · have hle : m.entries.length ≤ min ((newIndex + 1) <<< 1) l.maxElements := by omega
    have hnext : min ((newIndex + 1) <<< 1) l.maxElements ≤ l.maxElements := min_le_right ..
    have ha := appended hle type
    exact ⟨⟨_, ha.holds hbits hle hnext h⟩, by rw [ha.length_eq]; omega, ha.old,
      ha.liveAt_eq hbits hnext, rfl, rfl⟩
  · exact ⟨⟨[], by simpa using h⟩, by omega, fun _ _ => rfl, fun _ => rfl, rfl, rfl⟩

end Grow

/-! ### The loop of `addFixed` -/

theorem findPrevious_of_path {m : Manager l Item} {xs : List ℕ} {p target first : ℕ}
    (hpath : Path (fun i => some (m.nextFree i)) (some first) (xs ++ [p]) (some target))
    (hlt : ∀ i ∈ xs ++ [p], i < m.entries.length) (hnot : target ∉ xs ++ [p]) {fuel : ℕ}
    (hfuel : xs.length ≤ fuel) : findPrevious m.entries target fuel first = .ok p := by
  induction xs generalizing first fuel with
  | nil =>
    obtain ⟨hfirst, hnext⟩ := hpath
    obtain rfl := some.inj hfirst
    have hentry := getElem?_eq_getElem (hlt first (by simp))
    have htarget : m.nextFree first = target := some.inj hnext
    rw [nextFree_of_entry hentry] at htarget
    rw [findPrevious.eq_def, readAt_of_getElem? hentry]
    simp [htarget]
  | cons x xs ih =>
    obtain ⟨hfirst, hrest⟩ := hpath
    obtain rfl := some.inj hfirst
    have hentry := getElem?_eq_getElem (hlt first (by simp))
    -- the next node is in the path, so it is not the one looked for
    have hne : m.nextFree first ≠ target := by
      intro heq
      apply hnot
      cases xs with
      | nil =>
        have : m.nextFree first = p := some.inj hrest.1
        simp [← this, heq]
      | cons y ys =>
        have : m.nextFree first = y := some.inj hrest.1
        simp [← this, heq]
    obtain ⟨fuel, rfl⟩ : ∃ n, fuel = n + 1 := ⟨fuel - 1, by simp at hfuel; omega⟩
    have hgo := ih hrest (fun i hi => hlt i (mem_cons_of_mem _ hi))
      (fun hmem => hnot (mem_cons_of_mem _ hmem)) (by simpa using hfuel)
    rw [nextFree_of_entry hentry] at hne hgo
    rw [findPrevious.eq_def, readAt_of_getElem? hentry]
    simp only [Checked.ok_bind, if_neg hne]
    exact hgo

end Manager

end AndroidEmu.EntityManager
