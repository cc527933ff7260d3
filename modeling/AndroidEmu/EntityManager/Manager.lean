import AndroidEmu.CS.Memory
import AndroidEmu.EntityManager.Handle

/-!
# The entity manager

`EntityManager` keeps items in a growing array. The links of the free entries make a list from
`mFirstFreeIndex` that ends at the size of the array. An entry is live when its handle carries its
generation.
-/

namespace AndroidEmu.EntityManager

open CS

variable {l : Layout} {Item : Type}

/-- `EntityEntry`. -/
structure Entry (Item : Type) where
  handle : Handle
  nextFreeIndex : ℕ
  liveGeneration : ℕ
  item : Item

/-- A new entry, in its first generation. -/
def Entry.fresh [Inhabited Item] : Entry Item := ⟨0, 0, 1, default⟩

/-- `EntityManager`. -/
structure Manager (l : Layout) (Item : Type) where
  entries : List (Entry Item)
  firstFreeIndex : ℕ
  liveEntries : ℕ

/-- The generation after one, which is never zero. -/
def Layout.bump (l : Layout) (generation : ℕ) : ℕ :=
  let generation := wrapNat 64 (generation + 1)
  if generation = 0 ∨ generation = l.generations then 1 else generation

/-- What `reserve` makes of an entry. -/
def Layout.reset (l : Layout) (i : ℕ) (e : Entry Item) : Entry Item :=
  { e with
    handle := l.makeHandle i 0 1
    nextFreeIndex := i + 1
    liveGeneration := l.bump e.liveGeneration }

/-- The entries that a growing array is extended by, from index `i` on. -/
def Layout.freshEntries [Inhabited Item] (l : Layout) (i count type : ℕ) : List (Entry Item) :=
  (List.range' i count).map fun j =>
    { Entry.fresh with handle := l.makeHandle j 0 type, nextFreeIndex := j + 1 }

namespace Manager

section Model

variable [Inhabited Item]

/-- `EntityManager::reserve`. -/
def reserve (m : Manager l Item) (count : ℕ) : Manager l Item :=
  let entries := m.entries ++ .replicate (count - m.entries.length) Entry.fresh
  { m with entries := entries.mapIdx fun i e => if i < count then l.reset i e else e }

/-- The constructor. -/
def new (l : Layout) (initialItems : ℕ) : Manager l Item :=
  reserve ⟨.replicate initialItems Entry.fresh, 0, 0⟩ initialItems

/-- `EntityManager::clear`. -/
def clear (m : Manager l Item) : Manager l Item :=
  { m.reserve m.entries.length with firstFreeIndex := 0, liveEntries := 0 }

/-- The resizing step of `add` and `addFixed`: afterwards the array has an entry for the
index. -/
def ensureCapacity (m : Manager l Item) (newIndex type : ℕ) : Manager l Item :=
  let neededCapacity := newIndex + 1
  let currentCapacity := m.entries.length
  let nextCapacity := min (neededCapacity <<< 1) l.maxElements
  if neededCapacity > m.entries.length then
    { m with entries :=
        m.entries ++ l.freshEntries currentCapacity (nextCapacity - currentCapacity) type }
  else m

/-- `EntityManager::add`. -/
def add (m : Manager l Item) (item : Item) (type : ℕ) : Checked (Manager l Item × Handle) :=
  if type = 0 then .ok (m, invalidHandle)
  else if m.liveEntries = l.maxElements then .ok (m, invalidHandle)
  else if l.maxElements < m.firstFreeIndex + 1 then .ok (m, invalidHandle)
  else do
    let newIndex := m.firstFreeIndex
    let m := m.ensureCapacity newIndex type
    let entry ← readAt m.entries newIndex
    let handle := l.makeHandle newIndex entry.liveGeneration type
    return ({
        entries := m.entries.set newIndex { entry with handle := handle, item := item }
        firstFreeIndex := entry.nextFreeIndex
        liveEntries := wrapNat 64 (m.liveEntries + 1) },
      handle)

/-- The loop of `addFixed`: follow the free list to the entry before `target`. The loop has
no end of its own; with more steps than entries it is in a cycle. -/
def findPrevious (entries : List (Entry Item)) (target fuel prevEntryIndex : ℕ) : Checked ℕ := do
  let prev ← readAt entries prevEntryIndex
  if prev.nextFreeIndex = target then return prevEntryIndex
  else
    match fuel with
    | 0 => .error .endless
    | fuel + 1 => findPrevious entries target fuel prev.nextFreeIndex

/-- `EntityManager::addFixed`. -/
def addFixed (m : Manager l Item) (fixedHandle : Handle) (item : Item) (type : ℕ) :
    Checked (Manager l Item × Handle) :=
  if type = 0 then .ok (m, invalidHandle)
  else if m.liveEntries = l.maxElements then .ok (m, invalidHandle)
  else if l.maxElements < l.getHandleIndex fixedHandle + 1 then .ok (m, invalidHandle)
  else do
    let newIndex := l.getHandleIndex fixedHandle
    let m := m.ensureCapacity newIndex type
    let old ← readAt m.entries newIndex
    let isAlloced := old.liveGeneration = l.getHandleGeneration old.handle
    let entry := { old with
      handle := fixedHandle
      liveGeneration := l.getHandleGeneration fixedHandle
      item := item }
    let entries := m.entries.set newIndex entry
    if m.firstFreeIndex = newIndex then
      return ({
          entries := entries
          firstFreeIndex := entry.nextFreeIndex
          liveEntries := wrapNat 64 (m.liveEntries + 1) },
        fixedHandle)
    else if isAlloced then return ({ m with entries := entries }, fixedHandle)
    else
      -- in the free list, but not its head: skip over the entry
      let prevEntryIndex ← findPrevious entries newIndex entries.length m.firstFreeIndex
      let prev ← readAt entries prevEntryIndex
      return ({ m with
          entries := entries.set prevEntryIndex { prev with nextFreeIndex := entry.nextFreeIndex }
          liveEntries := wrapNat 64 (m.liveEntries + 1) },
        fixedHandle)

end Model

/-- `EntityManager::get`. -/
def get (m : Manager l Item) (h : Handle) : Option Item :=
  match m.entries[l.getHandleIndex h]? with
  | none => none
  | some entry =>
    if entry.liveGeneration ≠ l.getHandleGeneration h then none else some entry.item

/-- `get_const`. -/
def getConst (m : Manager l Item) (h : Handle) : Option Item :=
  match m.entries[l.getHandleIndex h]? with
  | none => none
  | some entry =>
    if entry.liveGeneration ≠ l.getHandleGeneration h then none else some entry.item

/-- `EntityManager::isLive`. -/
def isLive (m : Manager l Item) (h : Handle) : Bool :=
  match m.entries[l.getHandleIndex h]? with
  | none => false
  | some entry => entry.liveGeneration = l.getHandleGeneration h

/-- `EntityManager::remove`. -/
def remove (m : Manager l Item) (h : Handle) : Checked (Manager l Item) :=
  if (m.get h).isNone then .ok m
  else do
    let index := l.getHandleIndex h
    let entry ← readAt m.entries index
    return {
      entries := m.entries.set index { entry with
        liveGeneration := l.bump entry.liveGeneration
        nextFreeIndex := m.firstFreeIndex }
      firstFreeIndex := index
      liveEntries := subNat 64 m.liveEntries 1 }

/-- Change in place the item that `get` returns a pointer to. -/
def modify (m : Manager l Item) (h : Handle) (f : Item → Item) : Manager l Item :=
  if (m.get h).isNone then m
  else { m with
    entries := m.entries.modify (l.getHandleIndex h) fun e => { e with item := f e.item } }

/-- The entry at an index is live: its handle names it, with its generation. -/
def liveAt (m : Manager l Item) (i : ℕ) : Bool :=
  m.entries[i]?.any fun e =>
    l.getHandleIndex e.handle = i && l.getHandleGeneration e.handle = e.liveGeneration

/-- The link of a free entry. -/
def nextFree (m : Manager l Item) (i : ℕ) : ℕ := (m.entries[i]?.map Entry.nextFreeIndex).getD 0

end Manager

/-! ### Generations -/

section Bump

variable {generation : ℕ}

theorem Layout.generations_le (l : Layout) : l.generations ≤ 2 ^ 64 := by
  have := l.total
  exact Nat.pow_le_pow_right (by decide) (by omega)

theorem Layout.four_le_generations (hbits : 2 ≤ l.generationBits) : 4 ≤ l.generations :=
  Nat.pow_le_pow_right (show 0 < 2 by decide) hbits

theorem Layout.bump_spec (hbits : 2 ≤ l.generationBits) (hlt : generation < l.generations) :
    l.bump generation < l.generations ∧ 0 < l.bump generation ∧ l.bump generation ≠ generation := by
  have hfour := Layout.four_le_generations hbits
  have hle := l.generations_le
  unfold bump
  by_cases hlast : generation + 1 = l.generations
  · have hwrap : wrapNat 64 (generation + 1) = 0 ∨ wrapNat 64 (generation + 1) = l.generations := by
      rcases Nat.lt_or_eq_of_le hle with h | h
      · exact .inr (by rw [hlast, wrapNat_of_lt h])
      · exact .inl (by rw [hlast, h]; rfl)
    simp only [hwrap, if_true]
    omega
  · have hwrap : wrapNat 64 (generation + 1) = generation + 1 := wrapNat_of_lt (by omega)
    simp only [hwrap, hlast, Nat.add_eq_zero_iff, one_ne_zero, and_false, or_false, if_false]
    omega

end Bump

/-! ### Entries -/

namespace Manager

variable {m : Manager l Item} {i j : ℕ} {e : Entry Item}

theorem liveAt_of_entry (h : m.entries[i]? = some e) : m.liveAt i = true ↔
      l.getHandleIndex e.handle = i ∧ l.getHandleGeneration e.handle = e.liveGeneration := by
  simp [liveAt, h]

theorem liveAt_of_none (h : m.entries[i]? = none) : m.liveAt i = false := by
  simp [liveAt, h]

theorem exists_of_liveAt (h : m.liveAt i = true) :
    i < l.maxElements ∧ ∃ e, m.entries[i]? = some e ∧ l.getHandleIndex e.handle = i ∧
      l.getHandleGeneration e.handle = e.liveGeneration := by
  cases he : m.entries[i]? with
  | none =>
    rw [liveAt_of_none he] at h
    cases h
  | some e =>
    have hlive := (liveAt_of_entry he).mp h
    refine ⟨?_, e, rfl, hlive⟩
    rw [← hlive.1]
    exact l.getHandleIndex_lt _

theorem nextFree_of_entry (h : m.entries[i]? = some e) : m.nextFree i = e.nextFreeIndex := by
  simp [nextFree, h]

theorem isLive_eq (m : Manager l Item) (h : Handle) : m.isLive h = (m.get h).isSome := by
  unfold isLive get
  cases m.entries[l.getHandleIndex h]? with
  | none => rfl
  | some entry =>
    by_cases hgen : entry.liveGeneration = l.getHandleGeneration h
    · simp [hgen]
    · simp [hgen]

theorem get_eq_some_iff {h : Handle} {item : Item} :
    m.get h = some item ↔ ∃ e, m.entries[l.getHandleIndex h]? = some e ∧
      e.liveGeneration = l.getHandleGeneration h ∧ e.item = item := by
  unfold get
  cases m.entries[l.getHandleIndex h]? with
  | none => simp
  | some entry =>
    by_cases hgen : entry.liveGeneration = l.getHandleGeneration h
    · simp [hgen]
    · simp [hgen]

theorem isSome_get_iff {h : Handle} :
    (m.get h).isSome = true ↔ ∃ e, m.entries[l.getHandleIndex h]? = some e ∧
      e.liveGeneration = l.getHandleGeneration h := by
  rw [Option.isSome_iff_exists]
  constructor
  · rintro ⟨item, hitem⟩
    obtain ⟨e, he, hgen, -⟩ := get_eq_some_iff.mp hitem
    exact ⟨e, he, hgen⟩
  · rintro ⟨e, he, hgen⟩
    exact ⟨e.item, get_eq_some_iff.mpr ⟨e, he, hgen, rfl⟩⟩

end Manager

end AndroidEmu.EntityManager
