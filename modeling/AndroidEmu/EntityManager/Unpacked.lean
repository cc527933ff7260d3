import AndroidEmu.EntityManager.Handle

/-!
# The unpacked component manager

`UnpackedComponentManager` keeps one component for each index of an entity. The handle that is
stored with it is read by the iteration only, so that two handles with one index share their slot.
-/

namespace AndroidEmu.EntityManager

open Function List Option

variable {l : Layout} {Data : Type}

/-- `UnpackedComponentManager`: the handle and the data of the live slots. A slot is only written
with a handle of its index. `get` may extend the array by slots that are not live, which no
operation tells from missing ones. -/
structure Components (l : Layout) (Data : Type) where
  items : List (Option (Handle × Data))
  index_eq : ∀ (i : ℕ) (h : Handle) (d : Data), items[i]? = some (some (h, d)) →
    l.getHandleIndex h = i

namespace Components

variable {c : Components l Data} {g h : Handle} {d : Data} {i : ℕ}

def empty : Components l Data := ⟨[], by simp⟩

/-- What is stored under an index. -/
def slot (c : Components l Data) (i : ℕ) : Option (Handle × Data) := c.items[i]?.join

theorem slot_eq_some : c.slot i = some (h, d) ↔ c.items[i]? = some (some (h, d)) := by
  unfold slot
  rw [join_eq_some_iff]

theorem getHandleIndex_of_slot (hs : c.slot i = some (h, d)) : l.getHandleIndex h = i :=
  c.index_eq i h d (slot_eq_some.mp hs)

def put (c : Components l Data) (i : ℕ) (x : Option (Handle × Data))
    (hx : ∀ h d, x = some (h, d) → l.getHandleIndex h = i) : Components l Data where
  items := c.items.set i x
  index_eq := by
    intro j h d hj
    rw [List.getElem?_set] at hj
    split_ifs at hj with hij hlt
    · obtain rfl := Option.some.inj hj
      rw [hx h d rfl, hij]
    · exact c.index_eq j h d hj

/-- Make room for an index. -/
def grow (c : Components l Data) (i : ℕ) : Components l Data where
  items := if i + 1 > c.items.length
    then c.items ++ .replicate ((i + 1) * 2 - c.items.length) none else c.items
  index_eq := by
    intro j h d hj
    split_ifs at hj
    · rw [List.getElem?_append, List.getElem?_replicate] at hj
      split_ifs at hj
      · exact c.index_eq j h d hj
      · cases hj
    · exact c.index_eq j h d hj

/-- `UnpackedComponentManager::add`. -/
def add (c : Components l Data) (h : Handle) (d : Data) : Components l Data :=
  (c.grow (l.getHandleIndex h)).put (l.getHandleIndex h) (some (h, d)) (by
    rintro h' d' heq
    cases heq
    rfl)

/-- `UnpackedComponentManager::remove`. -/
def remove (c : Components l Data) (h : Handle) : Components l Data :=
  c.put (l.getHandleIndex h) none (by
    rintro h' d' heq
    cases heq)

/-- `get`, for a component that is read. -/
def get (c : Components l Data) (h : Handle) : Option Data :=
  (c.slot (l.getHandleIndex h)).map Prod.snd

/-- `get`, for a component that is changed in place. -/
def modify (c : Components l Data) (h : Handle) (f : Data → Data) : Components l Data where
  items := c.items.modify (l.getHandleIndex h) (Option.map fun p => (p.1, f p.2))
  index_eq := by
    intro j g d hj
    rw [List.getElem?_modify] at hj
    obtain ⟨x, hx, heq⟩ := Option.map_eq_some_iff.mp hj
    split_ifs at heq
    · obtain ⟨p, rfl, hp⟩ := Option.map_eq_some_iff.mp heq
      obtain ⟨rfl, -⟩ := Prod.mk.inj hp
      exact c.index_eq j p.1 p.2 hx
    · obtain rfl : x = some (g, d) := heq
      exact c.index_eq j g d hx

/-- What `forEachLiveComponent` meets, in order. -/
def lives (c : Components l Data) : List (Handle × Data) := c.items.filterMap id

/-- The component that was added under exactly this handle. -/
def find (c : Components l Data) (h : Handle) : Option Data :=
  match c.slot (l.getHandleIndex h) with
  | none => none
  | some (g, d) => if g = h then some d else none

/-! ### Slots -/

theorem slot_put {x : Option (Handle × Data)} {hx : ∀ h d, x = some (h, d) → l.getHandleIndex h = i}
    (j : ℕ) : (c.put i x hx).slot j = if j = i ∧ i < c.items.length then x else c.slot j := by
  simp only [slot, put, getElem?_set]
  by_cases hij : i = j
  · subst hij
    by_cases hlt : i < c.items.length
    · simp [hlt]
    · simp [hlt]
  · simp [hij, Ne.symm hij]

theorem lt_length_grow (c : Components l Data) (i : ℕ) : i < (c.grow i).items.length := by
  simp only [grow]
  split_ifs with hlt
  · rw [length_append, length_replicate]
    omega
  · omega

@[simp] theorem slot_grow (c : Components l Data) (i j : ℕ) : (c.grow i).slot j = c.slot j := by
  simp only [slot, grow]
  split_ifs with hlt
  · rw [getElem?_append, getElem?_replicate]
    split_ifs with hj hj'
    · rfl
    · rw [getElem?_eq_none (by omega)]
      rfl
    · rw [getElem?_eq_none (by omega)]
  · rfl

@[simp] theorem slot_add (c : Components l Data) (h : Handle) (d : Data) :
    (c.add h d).slot = Function.update c.slot (l.getHandleIndex h) (some (h, d)) := by
  funext j
  have hlt := c.lt_length_grow (l.getHandleIndex h)
  rw [add, slot_put, slot_grow]
  by_cases hj : j = l.getHandleIndex h
  · rw [if_pos ⟨hj, hlt⟩, hj, update_self]
  · rw [if_neg fun hand => hj hand.1, update_of_ne hj]

@[simp] theorem slot_remove (c : Components l Data) (h : Handle) :
    (c.remove h).slot = Function.update c.slot (l.getHandleIndex h) none := by
  funext j
  rw [remove, slot_put]
  by_cases hj : j = l.getHandleIndex h
  · subst hj
    rw [update_self]
    split_ifs with hlt
    · rfl
    · rw [slot, getElem?_eq_none (by omega)]
      rfl
  · rw [if_neg fun hand => hj hand.1, update_of_ne hj]

@[simp] theorem slot_modify (c : Components l Data) (h : Handle) (f : Data → Data) :
    (c.modify h f).slot = Function.update c.slot (l.getHandleIndex h)
      ((c.slot (l.getHandleIndex h)).map fun p => (p.1, f p.2)) := by
  funext j
  simp only [slot, modify, List.getElem?_modify]
  by_cases hj : j = l.getHandleIndex h
  · subst hj
    rw [update_self]
    cases c.items[l.getHandleIndex h]? with
    | none => rfl
    | some x => simp
  · rw [update_of_ne hj]
    simp [slot, Ne.symm hj]

/-! ### Exact handles -/

theorem find_eq_some : c.find h = some d ↔ c.slot (l.getHandleIndex h) = some (h, d) := by
  unfold find
  split
  · rename_i hs
    simp [hs]
  · rename_i g d' hs
    rw [hs]
    by_cases hgh : g = h
    · simp [hgh]
    · simp [hgh]

theorem find_of_slot (hs : c.slot i = some (h, d)) : c.find h = some d := by
  rw [find_eq_some, getHandleIndex_of_slot hs, hs]

theorem get_eq_some_iff :
    c.get h = some d ↔ ∃ g, l.getHandleIndex g = l.getHandleIndex h ∧ c.find g = some d := by
  unfold get
  rw [map_eq_some_iff]
  constructor
  · rintro ⟨⟨g, d'⟩, hs, rfl⟩
    exact ⟨g, getHandleIndex_of_slot hs, find_of_slot hs⟩
  · rintro ⟨g, hindex, hfind⟩
    exact ⟨(g, d), by rw [← hindex, ← find_eq_some, hfind], rfl⟩

theorem get_of_find (hf : c.find h = some d) : c.get h = some d := get_eq_some_iff.mpr ⟨h, rfl, hf⟩

theorem eq_of_find {d' : Data} (hg : c.find g = some d) (hh : c.find h = some d')
    (hindex : l.getHandleIndex g = l.getHandleIndex h) : g = h := by
  rw [find_eq_some] at hg hh
  rw [hindex, hh] at hg
  exact (congrArg Prod.fst (some.inj hg)).symm

@[simp] theorem find_empty (h : Handle) : (empty : Components l Data).find h = none := by
  rw [eq_none_iff_forall_ne_some]
  intro d hd
  rw [find_eq_some, slot_eq_some] at hd
  simp [empty] at hd

theorem find_add (c : Components l Data) (h : Handle) (d : Data) (g : Handle) :
    (c.add h d).find g = if g = h then some d
      else if l.getHandleIndex g = l.getHandleIndex h then none else c.find g := by
  unfold find
  rw [slot_add]
  by_cases hindex : l.getHandleIndex g = l.getHandleIndex h
  · rw [hindex, update_self]
    by_cases hgh : g = h
    · simp [hgh]
    · simp [hgh, Ne.symm hgh]
  · have hgh : g ≠ h := fun heq => hindex (congrArg _ heq)
    rw [update_of_ne hindex, if_neg hgh, if_neg hindex]

theorem find_modify (c : Components l Data) (h : Handle) (f : Data → Data) (g : Handle) :
    (c.modify h f).find g =
      if l.getHandleIndex g = l.getHandleIndex h then (c.find g).map f else c.find g := by
  unfold find
  rw [slot_modify]
  by_cases hindex : l.getHandleIndex g = l.getHandleIndex h
  · rw [hindex, update_self, if_pos rfl]
    cases c.slot (l.getHandleIndex h) with
    | none => rfl
    | some p =>
      by_cases hpg : p.1 = g
      · simp [hpg]
      · simp [hpg]
  · rw [update_of_ne hindex, if_neg hindex]

theorem ext_items {c' : Components l Data} (hitems : c.items = c'.items) : c = c' := by
  obtain ⟨items, hindex⟩ := c
  obtain ⟨items', hindex'⟩ := c'
  obtain rfl : items = items' := hitems
  rfl

theorem modify_modify (c : Components l Data) (h : Handle) (f f' : Data → Data) :
    (c.modify h f).modify h f' = c.modify h fun d => f' (f d) := by
  apply ext_items
  simp only [modify, modify_modify_eq]
  congr 1
  funext x
  cases x with
  | none => rfl
  | some p => rfl

theorem modify_congr {f f' : Data → Data} (hget : c.get h = some d) (hf : f d = f' d) :
    c.modify h f = c.modify h f' := by
  obtain ⟨⟨g, d'⟩, hs, rfl⟩ := map_eq_some_iff.mp hget
  have hitem := slot_eq_some.mp hs
  apply ext_items
  apply ext_getElem?
  intro j
  simp only [modify, List.getElem?_modify]
  by_cases hj : l.getHandleIndex h = j
  · rw [hj] at hitem
    simp only [hj, if_true, hitem]
    exact congrArg (fun d => some (some (g, d))) hf
  · simp [hj]

/-! ### The iteration -/

theorem mem_lives : (h, d) ∈ c.lives ↔ c.find h = some d := by
  rw [find_eq_some, slot_eq_some, lives, mem_filterMap]
  constructor
  · rintro ⟨x, hx, heq⟩
    obtain ⟨i, hi⟩ := mem_iff_getElem?.mp hx
    obtain rfl : x = some (h, d) := heq
    rw [c.index_eq i h d hi, hi]
  · intro hs
    exact ⟨some (h, d), mem_of_getElem? hs, rfl⟩

theorem nodup_lives (c : Components l Data) : (c.lives.map Prod.fst).Nodup := by
  obtain ⟨items, hindex⟩ := c
  -- the handles of two slots have different indices
  have hpair : items.Pairwise fun x y => ∀ p ∈ x, ∀ q ∈ y, p.1 ≠ q.1 := by
    rw [pairwise_iff_getElem]
    intro i j hi hj hij p hp q hq heq
    have hpi := hindex i p.1 p.2 (by rw [getElem?_eq_getElem hi, mem_def.mp hp])
    have hqj := hindex j q.1 q.2 (by rw [getElem?_eq_getElem hj, mem_def.mp hq])
    rw [heq] at hpi
    omega
  rw [List.Nodup, pairwise_map]
  exact List.Pairwise.filterMap id (fun x y hxy p hp q hq => hxy p hp q hq) hpair

end Components

end AndroidEmu.EntityManager
