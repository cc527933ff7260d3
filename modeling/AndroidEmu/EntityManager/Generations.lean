import AndroidEmu.EntityManager.Operations

/-!
# Generations by history

The generation at an index follows from the calls alone: a handle that is stored brings its own, and
each removal and each `clear` moves on to the next one. Whoever carries that generation finds the
entry, be it live or free.
-/

namespace AndroidEmu.EntityManager

open CS Function Option Manager

variable {l : Layout} {Item : Type}

/-- The generation at each index of the array. -/
abbrev Generations := ℕ → Option ℕ

namespace Generations

/-- The array grows to twice what is needed, with first generations. -/
def grow (l : Layout) (c : Generations) (i : ℕ) : Generations := fun j =>
  if c i = none ∧ c j = none ∧ j < min (2 * (i + 1)) l.maxElements then some 1 else c j

/-- A handle is stored under its index. -/
def store (l : Layout) (c : Generations) (h : Handle) : Generations :=
  update (c.grow l (l.getHandleIndex h)) (l.getHandleIndex h) (some (l.getHandleGeneration h))

/-- A word that carries the generation at its index is removed. -/
def remove (l : Layout) (c : Generations) (h : Handle) : Generations :=
  if c (l.getHandleIndex h) = some (l.getHandleGeneration h) then
    update c (l.getHandleIndex h) (some (l.bump (l.getHandleGeneration h)))
  else c

def clear (l : Layout) (c : Generations) : Generations := fun i => (c i).map l.bump

/-- The constructor clears the entries that it makes. -/
def new (l : Layout) (initialItems : ℕ) : Generations := fun i =>
  if i < initialItems then some (l.bump 1) else none

end Generations

namespace Manager

variable {m m' : Manager l Item} {c : Generations} {free : List ℕ} {h : Handle} {item : Item}
  {type : ℕ}

/-- The entries have the generations that follow from the history. -/
def Carries (m : Manager l Item) (c : Generations) : Prop :=
  ∀ i, c i = m.entries[i]?.map Entry.liveGeneration

namespace Carries

theorem isSome_get_iff (hc : m.Carries c) (h : Handle) : (m.get h).isSome = true ↔
    c (l.getHandleIndex h) = some (l.getHandleGeneration h) := by
  rw [Manager.isSome_get_iff, hc, map_eq_some_iff]

theorem eq_none_iff (hc : m.Carries c) (i : ℕ) : c i = none ↔ m.entries.length ≤ i := by
  rw [hc, map_eq_none_iff, List.getElem?_eq_none_iff]

/-- Only the generation of one entry is set. -/
theorem of_set (hc : m.Carries c) {i g : ℕ} (hi : i < m.entries.length) (e' : Entry Item)
    (hg : e'.liveGeneration = g) (first live : ℕ) :
    (⟨m.entries.set i e', first, live⟩ : Manager l Item).Carries (update c i (some g)) := by
  intro j
  by_cases hj : j = i
  · subst hj
    rw [update_self, getElem?_set_self hi, ← hg]
    rfl
  · rw [update_of_ne hj, hc, getElem?_set_of_ne hj]

theorem remove (hc : m.Carries c) (hremove : m.remove h = .ok m') : m'.Carries (c.remove l h) := by
  unfold Manager.remove at hremove
  simp only [Generations.remove, ← hc.isSome_get_iff]
  cases hget : m.get h with
  | none =>
    rw [hget] at hremove
    obtain rfl := Except.ok.inj hremove
    rw [if_neg (by simp)]
    exact hc
  | some item =>
    obtain ⟨e, he, hgen, -⟩ := get_eq_some_iff.mp hget
    rw [hget, if_neg (by simp)] at hremove
    dsimp only at hremove
    rw [readAt_of_getElem? he] at hremove
    obtain rfl := Except.ok.inj hremove
    rw [if_pos (by simp), ← hgen]
    exact hc.of_set (lt_length_of_entry he) _ rfl _ _

variable [Inhabited Item]

theorem new (initialItems : ℕ) :
    (Manager.new l initialItems : Manager l Item).Carries (.new l initialItems) := by
  intro i
  have hreset := reserve_all (⟨.replicate initialItems Entry.fresh, 0, 0⟩ : Manager l Item)
  rw [List.length_replicate] at hreset
  change _ = (reserve ⟨.replicate initialItems Entry.fresh, 0, 0⟩ initialItems).entries[i]?.map _
  rw [hreset, List.getElem?_mapIdx, List.getElem?_replicate, Generations.new]
  split_ifs
  · rfl
  · rfl

theorem clear (hc : m.Carries c) : m.clear.Carries (c.clear l) := by
  intro i
  change _ = (m.reserve m.entries.length).entries[i]?.map _
  rw [reserve_all, List.getElem?_mapIdx, Generations.clear, hc]
  cases m.entries[i]? with
  | none => rfl
  | some e => rfl

theorem ensureCapacity (hc : m.Carries c) (i type : ℕ) :
    (m.ensureCapacity i type).Carries (c.grow l i) := by
  intro j
  simp only [Generations.grow, hc.eq_none_iff, Manager.ensureCapacity, Nat.shiftLeft_eq]
  by_cases hgrow : i + 1 > m.entries.length
  swap
  · rw [if_neg hgrow, if_neg (by omega)]
    exact hc j
  rw [if_pos hgrow]
  by_cases hj : j < m.entries.length
  · rw [if_neg (by omega), hc, List.getElem?_append_left hj]
  rw [List.getElem?_append_right (by omega), getElem?_freshEntries]
  by_cases hnew : j < min (2 * (i + 1)) l.maxElements
  · rw [if_pos (by omega), if_pos (by omega)]
    rfl
  · rw [if_neg (by omega), if_neg (by omega), (hc.eq_none_iff j).mpr (by omega)]
    rfl

theorem add (hbits : 2 ≤ l.generationBits) (hm : m.Holds free) (hc : m.Carries c)
    (hadd : m.add item type = .ok (m', h)) : m' = m ∧ h = invalidHandle ∨
      h = l.makeHandle m.firstFreeIndex ((c m.firstFreeIndex).getD 1) type ∧
        m'.Carries (c.store l h) := by
  unfold Manager.add at hadd
  split_ifs at hadd with htype hlive hfull
  · exact .inl (Checked.pair_inj hadd.symm)
  · exact .inl (Checked.pair_inj hadd.symm)
  · exact .inl (Checked.pair_inj hadd.symm)
  right
  have hmax : m.firstFreeIndex < l.maxElements := by omega
  have hgrown := hm.ensureCapacity hbits hmax type
  have hc1 := hc.ensureCapacity m.firstFreeIndex type
  dsimp only at hadd
  generalize m.ensureCapacity m.firstFreeIndex type = m1 at hgrown hc1 hadd
  obtain ⟨more, h1⟩ := hgrown.holds
  have hlt := hgrown.lt_length
  have he := List.getElem?_eq_getElem hlt
  rw [readAt_of_getElem? he] at hadd
  obtain ⟨rfl, rfl⟩ := Checked.pair_inj hadd
  have hgen := hc1 m.firstFreeIndex
  rw [he, Generations.grow] at hgen
  constructor
  · congr 1
    split_ifs at hgen with hnone
    · rw [hnone.1]
      exact (some.inj hgen).symm
    · rw [hgen]
      rfl
  · rw [Generations.store, Layout.getHandleIndex_makeHandle hmax,
      Layout.getHandleGeneration_makeHandle hmax (h1.generation_lt _ _ he)]
    exact hc1.of_set hlt _ rfl _ _

theorem addFixed (hc : m.Carries c) {r : Handle} (htype : type ≠ 0)
    (hroom : m.liveEntries ≠ l.maxElements) (hadd : m.addFixed h item type = .ok (m', r)) :
    m'.Carries (c.store l h) := by
  have hmax := l.getHandleIndex_lt h
  rw [Manager.addFixed, if_neg htype, if_neg hroom, if_neg (by omega)] at hadd
  have hc1 := hc.ensureCapacity (l.getHandleIndex h) type
  dsimp only at hadd
  rw [Generations.store]
  generalize m.ensureCapacity (l.getHandleIndex h) type = m1 at hc1 hadd
  generalize l.getHandleIndex h = i at hc1 hadd ⊢
  obtain ⟨old, hold, hadd⟩ := Checked.bind_eq_ok.mp hadd
  have hi := lt_length_of_entry (readAt_eq_ok.mp hold)
  split_ifs at hadd with hhead halloc
  · obtain ⟨rfl, -⟩ := Checked.pair_inj hadd
    exact hc1.of_set hi _ rfl _ _
  · obtain ⟨rfl, -⟩ := Checked.pair_inj hadd
    exact hc1.of_set hi _ rfl _ _
  · -- only a link is set besides
    obtain ⟨p, -, hadd⟩ := Checked.bind_eq_ok.mp hadd
    obtain ⟨prev, hprev, hadd⟩ := Checked.bind_eq_ok.mp hadd
    obtain ⟨rfl, -⟩ := Checked.pair_inj hadd
    have hp := readAt_eq_ok.mp hprev
    have hset := hc1.of_set hi { old with
      handle := h, liveGeneration := l.getHandleGeneration h, item := item } rfl 0 0
    have hsame := hset.of_set (lt_length_of_entry hp)
      { prev with nextFreeIndex := old.nextFreeIndex } rfl
      m1.firstFreeIndex (wrapNat 64 (m1.liveEntries + 1))
    rwa [update_eq_self_iff.mpr (by rw [hset, hp]; rfl)] at hsame

end Carries

end Manager

end AndroidEmu.EntityManager
