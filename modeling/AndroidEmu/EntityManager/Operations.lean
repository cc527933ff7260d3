import AndroidEmu.EntityManager.FreeList

/-!
# What the operations of the entity manager do

Seen from outside a manager is a map from the indices of the live entries to their handles and
items. Each operation keeps the free list in order and changes this map in one place.
-/

namespace AndroidEmu.EntityManager

open CS List Function Option

variable {l : Layout} {Item : Type}

/-- What an entry contributes to the map. -/
def Entry.data (e : Entry Item) : Handle × ℕ × Item := (e.handle, e.liveGeneration, e.item)

namespace Manager

variable {m m' : Manager l Item} {free : List ℕ} {i : ℕ} {e e' : Entry Item}

/-- The handle and the item of the live entry at an index. -/
def contents (m : Manager l Item) (i : ℕ) : Option (Handle × Item) :=
  if m.liveAt i then m.entries[i]?.map fun e => (e.handle, e.item) else none

/-! ### The map -/

open Entry

theorem key_of_data (h : m'.entries[i]?.map data = m.entries[i]?.map data) :
    m'.entries[i]?.map key = m.entries[i]?.map key := by
  have hkey : ∀ m : Manager l Item, m.entries[i]?.map key =
      (m.entries[i]?.map data).map fun d => (d.1, d.2.1) := by
    intro m
    cases m.entries[i]? with
    | none => rfl
    | some e => rfl
  rw [hkey, hkey, h]

theorem contents_congr (h : m'.entries[i]?.map data = m.entries[i]?.map data) :
    m'.contents i = m.contents i := by
  have hdata : ∀ m : Manager l Item, (m.entries[i]?.map fun e => (e.handle, e.item)) =
      (m.entries[i]?.map data).map fun d => (d.1, d.2.2) := by
    intro m
    cases m.entries[i]? with
    | none => rfl
    | some e => rfl
  unfold contents
  rw [liveAt_congr (key_of_data h), hdata, hdata, h]

theorem contents_of_liveAt (he : m.entries[i]? = some e) (hlive : m.liveAt i = true) :
    m.contents i = some (e.handle, e.item) := by
  rw [contents, if_pos hlive, he, map_some]

theorem contents_of_not_liveAt (h : m.liveAt i = false) : m.contents i = none := by
  rw [contents, h]
  rfl

theorem isSome_contents (m : Manager l Item) (i : ℕ) : (m.contents i).isSome = m.liveAt i := by
  cases hlive : m.liveAt i with
  | false => rw [contents_of_not_liveAt hlive]; rfl
  | true =>
    obtain ⟨-, e, he, -⟩ := exists_of_liveAt hlive
    rw [contents_of_liveAt he hlive]
    rfl

theorem get_of_contents {h : Handle} {item : Item} (hc : m.contents i = some (h, item)) :
    l.getHandleIndex h = i ∧ m.get h = some item := by
  have hlive : m.liveAt i = true := by rw [← isSome_contents, hc]; rfl
  obtain ⟨-, e, he, hindex, hgen⟩ := exists_of_liveAt hlive
  rw [contents_of_liveAt he hlive] at hc
  obtain ⟨rfl, rfl⟩ := Prod.mk.inj (some.inj hc)
  exact ⟨hindex, get_eq_some_iff.mpr ⟨e, by rw [hindex, he], hgen.symm, rfl⟩⟩

theorem Grown.contents {newIndex : ℕ} (h : Grown m m' free newIndex) :
    m'.contents = m.contents := by
  funext i
  cases hlive : m.liveAt i with
  | false =>
    rw [contents_of_not_liveAt hlive, contents_of_not_liveAt]
    rw [h.liveAt, hlive]
  | true => exact contents_congr (by rw [h.getElem? i (Holds.lt_of_liveAt hlive)])

theorem contents_update (hother : ∀ j, j ≠ i → m'.entries[j]?.map data = m.entries[j]?.map data)
    (he' : m'.entries[i]? = some e') (hindex : l.getHandleIndex e'.handle = i)
    (hgen : l.getHandleGeneration e'.handle = e'.liveGeneration) :
    m'.contents = Function.update m.contents i (some (e'.handle, e'.item)) := by
  funext j
  by_cases hji : j = i
  · subst hji
    rw [update_self, contents_of_liveAt he' ((liveAt_of_entry he').mpr ⟨hindex, hgen⟩)]
  · rw [update_of_ne hji, contents_congr (hother j hji)]

/-! ### Lookups after a store -/

theorem getElem?_set_self (hi : i < m.entries.length) (e' : Entry Item) :
    (m.entries.set i e')[i]? = some e' := by
  simp [hi]

theorem getElem?_set_of_ne {j : ℕ} (hj : j ≠ i) (e' : Entry Item) :
    (m.entries.set i e')[j]? = m.entries[j]? := getElem?_set_ne (Ne.symm hj)

theorem contents_set (hi : i < m.entries.length) (hindex : l.getHandleIndex e'.handle = i)
    (hgen : l.getHandleGeneration e'.handle = e'.liveGeneration) (first live : ℕ) :
    (⟨m.entries.set i e', first, live⟩ : Manager l Item).contents =
      Function.update m.contents i (some (e'.handle, e'.item)) :=
  contents_update (fun _ hj => congrArg _ (getElem?_set_of_ne hj e')) (getElem?_set_self hi e')
    hindex hgen

/-! ### Outcomes -/

/-- What `add` returns. -/
inductive Added (m : Manager l Item) (item : Item) (type : ℕ) : Manager l Item × Handle → Prop
  | refused (hfull : type = 0 ∨ ∀ i, i < l.maxElements → m.liveAt i = true) :
      Added m item type (m, invalidHandle)
  | added {m' : Manager l Item} {h : Handle} {free : List ℕ} (holds : m'.Holds free)
      (valid : h ≠ invalidHandle) (index : l.getHandleIndex h = m.firstFreeIndex)
      (dead : m.liveAt (l.getHandleIndex h) = false)
      (contents : m'.contents = Function.update m.contents (l.getHandleIndex h) (some (h, item))) :
      Added m item type (m', h)

/-- What `addFixed` returns. -/
inductive Fixed (m : Manager l Item) (h : Handle) (item : Item) (type : ℕ) :
    Manager l Item × Handle → Prop
  | refused (hfull : type = 0 ∨ m.liveEntries = l.maxElements) :
      Fixed m h item type (m, invalidHandle)
  | stored {m' : Manager l Item} {free : List ℕ} (htype : type ≠ 0)
      (hroom : m.liveEntries ≠ l.maxElements) (holds : m'.Holds free)
      (contents : m'.contents = Function.update m.contents (l.getHandleIndex h) (some (h, item))) :
      Fixed m h item type (m', h)

namespace Holds

/-! ### `add` -/

theorem exists_cons (h : m.Holds free) (hlt : m.firstFreeIndex < m.entries.length) :
    ∃ rest, free = m.firstFreeIndex :: rest := by
  cases free with
  | nil =>
    have : m.firstFreeIndex = m.entries.length := some.inj h.path
    omega
  | cons i rest =>
    obtain rfl := some.inj h.path.1
    exact ⟨rest, rfl⟩

theorem takeHead (hbits : 2 ≤ l.generationBits) {rest : List ℕ}
    (h : m.Holds (m.firstFreeIndex :: rest)) (hmax : m.firstFreeIndex < l.maxElements)
    (he : m.entries[m.firstFreeIndex]? = some e)
    (hindex : l.getHandleIndex e'.handle = m.firstFreeIndex)
    (hgen : l.getHandleGeneration e'.handle = e'.liveGeneration) :
    (⟨m.entries.set m.firstFreeIndex e', e.nextFreeIndex, wrapNat 64 (m.liveEntries + 1)⟩ :
      Manager l Item).Holds rest := by
  have hlt := lt_length_of_entry he
  have hnot := (nodup_cons.mp h.nodup).1
  have herase : (m.firstFreeIndex :: rest).erase m.firstFreeIndex = rest := erase_cons_head ..
  rw [← herase]
  apply occupy (fun j hj => congrArg _ (getElem?_set_of_ne hj e')) (by simp)
    (getElem?_set_self hlt e') hindex h hbits mem_cons_self hmax hgen _ rfl
  rw [herase]
  have hrest := h.path.2
  simp only [nextFree_of_entry he] at hrest
  rw [length_set]
  apply hrest.congr
  intro j hj
  have hne : j ≠ m.firstFreeIndex := fun heq => hnot (heq ▸ hj)
  simp only [nextFree, getElem?_set_of_ne hne e']

theorem add [Inhabited Item] (hbits : 2 ≤ l.generationBits) (h : m.Holds free) (item : Item)
    (type : ℕ) : ∃ r, m.add item type = .ok r ∧ Added m item type r := by
  unfold Manager.add
  by_cases htype : type = 0
  · exact ⟨_, if_pos htype, .refused (.inl htype)⟩
  rw [if_neg htype]
  by_cases hlive : m.liveEntries = l.maxElements
  · exact ⟨_, if_pos hlive, .refused (.inr (h.all_live (.inl hlive)))⟩
  rw [if_neg hlive]
  by_cases hfull : l.maxElements < m.firstFreeIndex + 1
  · exact ⟨_, if_pos hfull, .refused (.inr (h.all_live (.inr hfull)))⟩
  rw [if_neg hfull]
  have hmax : m.firstFreeIndex < l.maxElements := by omega
  have hgrown := h.ensureCapacity hbits hmax type
  -- the array has an entry for the first free index now
  dsimp only
  generalize m.ensureCapacity m.firstFreeIndex type = m1 at hgrown ⊢
  obtain ⟨more, h1⟩ := hgrown.holds
  rw [← hgrown.first] at hmax ⊢
  have hlt : m1.firstFreeIndex < m1.entries.length := hgrown.first ▸ hgrown.lt_length
  obtain ⟨rest, hfree⟩ := h1.exists_cons hlt
  rw [hfree] at h1
  obtain ⟨e, he⟩ := h1.exists_entry mem_cons_self
  have hgen := h1.generation_lt _ e he
  have hindex : l.getHandleIndex (l.makeHandle m1.firstFreeIndex e.liveGeneration type) =
      m1.firstFreeIndex := Layout.getHandleIndex_makeHandle hmax type
  have hgeneration : l.getHandleGeneration
      (l.makeHandle m1.firstFreeIndex e.liveGeneration type) = e.liveGeneration :=
    Layout.getHandleGeneration_makeHandle hmax hgen type
  set e' : Entry Item := { e with
    handle := l.makeHandle m1.firstFreeIndex e.liveGeneration type
    item := item } with he'
  have hsame : l.getHandleIndex e'.handle = m1.firstFreeIndex := hindex
  have hlive' : l.getHandleGeneration e'.handle = e'.liveGeneration := hgeneration
  refine ⟨_, by rw [readAt_of_getElem? he]; rfl, ?_⟩
  apply Added.added (h1.takeHead hbits hmax he hindex hgeneration)
  case valid =>
    intro hinvalid
    have hpos := h1.generation_pos _ e mem_cons_self he
    rw [← hgeneration, hinvalid, Layout.getHandleGeneration_eq] at hpos
    simp [invalidHandle] at hpos
  case index => rw [hindex, hgrown.first]
  case dead =>
    rw [hindex, ← hgrown.liveAt]
    exact ((h1.mem_free _).mp mem_cons_self).2
  case contents =>
    rw [hindex, ← hgrown.contents]
    exact contents_set hlt hsame hlive' _ _

/-! ### `addFixed` -/

/-- An entry in the middle of the list becomes live: the entry before it is linked to the
entry after it. -/
theorem unlink (hbits : 2 ≤ l.generationBits) {xs ys : List ℕ} {p : ℕ} {prev : Entry Item}
    (h : m.Holds (xs ++ p :: i :: ys)) (hmax : i < l.maxElements) (he : m.entries[i]? = some e)
    (hprev : m.entries[p]? = some prev) (hindex : l.getHandleIndex e'.handle = i)
    (hgen : l.getHandleGeneration e'.handle = e'.liveGeneration) : ({ m with
      entries := (m.entries.set i e').set p { prev with nextFreeIndex := e.nextFreeIndex }
      liveEntries := wrapNat 64 (m.liveEntries + 1) } : Manager l Item).Holds (xs ++ p :: ys) := by
  have hnodup := h.nodup
  have hpi : p ≠ i := by
    rintro rfl
    simp [nodup_append] at hnodup
  have hixs : i ∉ xs := by
    intro hmem
    exact (nodup_append.mp hnodup).2.2 i hmem i (by simp) rfl
  have hiys : i ∉ ys := by
    have := (nodup_append.mp hnodup).2.1
    simp only [nodup_cons] at this
    exact this.2.1
  have hpys : p ∉ ys := by
    have := (nodup_append.mp hnodup).2.1
    simp only [nodup_cons, mem_cons, not_or] at this
    exact this.1.2
  have hpxs : p ∉ xs := by
    intro hmem
    exact (nodup_append.mp hnodup).2.2 p hmem p (by simp) rfl
  have herase : (xs ++ p :: i :: ys).erase i = xs ++ p :: ys := by
    rw [erase_append_right _ hixs, erase_cons_tail (by simpa using hpi), erase_cons_head]
  set m' : Manager l Item := { m with
    entries := (m.entries.set i e').set p { prev with nextFreeIndex := e.nextFreeIndex }
    liveEntries := wrapNat 64 (m.liveEntries + 1) } with hm'
  have hp : m'.entries[p]? = some { prev with nextFreeIndex := e.nextFreeIndex } := by
    have := lt_length_of_entry hprev
    simp [hm', this]
  have hi : m'.entries[i]? = some e' := by
    rw [getElem?_set_ne hpi, getElem?_set_self (lt_length_of_entry he)]
  have hrest : ∀ j, j ≠ i → j ≠ p → m'.entries[j]? = m.entries[j]? := by
    intro j hji hjp
    simp [hm', getElem?_set_ne (Ne.symm hjp), getElem?_set_ne (Ne.symm hji)]
  have hother : ∀ j, j ≠ i → m'.entries[j]?.map key = m.entries[j]?.map key := by
    intro j hji
    by_cases hjp : j = p
    · subst hjp
      rw [hp, hprev]
      rfl
    · rw [hrest j hji hjp]
  rw [← herase]
  apply occupy hother (by simp [hm']) hi hindex h hbits (by simp) hmax hgen _ rfl
  -- the path to `p` is as it was, its link leads past `i`, and the rest is as it was
  rw [herase]
  obtain ⟨mid, hxs, hpath⟩ := Path.append_iff.mp h.path
  obtain ⟨rfl, -, hys⟩ := hpath
  have hnext : ∀ j, j ≠ i → j ≠ p → some (m'.nextFree j) = some (m.nextFree j) := by
    intro j hji hjp
    rw [nextFree, nextFree, hrest j hji hjp]
  have hfront : Path (fun j => some (m'.nextFree j)) (some m'.firstFreeIndex) xs (some p) := by
    apply hxs.congr
    intro j hj
    exact hnext j (fun hji => hixs (hji ▸ hj)) fun hjp => hpxs (hjp ▸ hj)
  apply hfront.append
  refine ⟨rfl, ?_⟩
  dsimp only at hys ⊢
  rw [nextFree_of_entry hp]
  rw [nextFree_of_entry he] at hys
  rw [show m'.entries.length = m.entries.length by simp [hm']]
  apply hys.congr
  intro j hj
  exact hnext j (fun hji => hiys (hji ▸ hj)) fun hjp => hpys (hjp ▸ hj)

theorem exists_previous (h : m.Holds free) (hi : i ∈ free) (hfirst : m.firstFreeIndex ≠ i) :
    ∃ xs p ys, free = xs ++ p :: i :: ys := by
  obtain ⟨s, ys, rfl⟩ := append_of_mem hi
  rcases eq_nil_or_concat' s with rfl | ⟨xs, p, rfl⟩
  · exact absurd (some.inj h.path.1) hfirst
  · exact ⟨xs, p, ys, by simp⟩

/-- A store that keeps the link of its entry keeps all links. -/
theorem nextFree_set {i : ℕ} {old e' : Entry Item} (hold : m.entries[i]? = some old)
    (he' : e'.nextFreeIndex = old.nextFreeIndex) (j : ℕ) :
    ({ m with entries := m.entries.set i e' } : Manager l Item).nextFree j = m.nextFree j := by
  by_cases hji : j = i
  · subst hji
    rw [nextFree_of_entry (getElem?_set_self (lt_length_of_entry hold) e'), nextFree_of_entry hold,
      he']
  · simp only [nextFree, getElem?_set_of_ne hji e']

/-- The loop finds the entry in front, also after the store. -/
theorem findPrevious_set {xs ys : List ℕ} {p i : ℕ} {old e' : Entry Item}
    (h : m.Holds (xs ++ p :: i :: ys)) (hold : m.entries[i]? = some old)
    (he' : e'.nextFreeIndex = old.nextFreeIndex) :
    findPrevious (m.entries.set i e') i (m.entries.set i e').length m.firstFreeIndex = .ok p := by
  have hsplit : xs ++ p :: i :: ys = (xs ++ [p]) ++ i :: ys := by simp
  have hnodup := h.nodup
  have hpath := h.path
  rw [hsplit] at hnodup hpath
  apply findPrevious_of_path (m := { m with entries := m.entries.set i e' }) (p := p)
  · obtain ⟨mid, hxs, hmid⟩ := Path.append_iff.mp hpath
    obtain ⟨rfl, -⟩ := hmid
    exact hxs.congr fun j _ => congrArg some (nextFree_set hold he' j)
  · intro j hj
    rw [length_set]
    apply ((h.mem_free j).mp _).1
    rw [hsplit]
    exact mem_append_left _ hj
  · exact fun hmem => (nodup_append.mp hnodup).2.2 i hmem i (by simp) rfl
  · have hcount := h.count
    simp only [length_append, length_cons, length_set] at hcount ⊢
    omega

theorem addFixed [Inhabited Item] (hbits : 2 ≤ l.generationBits) (h : m.Holds free)
    (fixedHandle : Handle) (item : Item) (type : ℕ) :
    ∃ r, m.addFixed fixedHandle item type = .ok r ∧ Fixed m fixedHandle item type r := by
  unfold Manager.addFixed
  by_cases htype : type = 0
  · exact ⟨_, if_pos htype, .refused (.inl htype)⟩
  rw [if_neg htype]
  by_cases hlive : m.liveEntries = l.maxElements
  · exact ⟨_, if_pos hlive, .refused (.inr hlive)⟩
  have hmax := l.getHandleIndex_lt fixedHandle
  rw [if_neg hlive, if_neg (by omega)]
  have hgrown := h.ensureCapacity hbits hmax type
  dsimp only
  generalize hi : l.getHandleIndex fixedHandle = i at hmax hgrown ⊢
  generalize m.ensureCapacity i type = m1 at hgrown ⊢
  obtain ⟨more, h1⟩ := hgrown.holds
  have hlt := hgrown.lt_length
  obtain ⟨old, hold⟩ : ∃ e, m1.entries[i]? = some e := ⟨_, getElem?_eq_getElem hlt⟩
  simp only [readAt_of_getElem? hold, Checked.ok_bind]
  set e' : Entry Item := { old with
    handle := fixedHandle
    liveGeneration := l.getHandleGeneration fixedHandle
    item := item } with he'
  have hnext : e'.nextFreeIndex = old.nextFreeIndex := rfl
  have hset := getElem?_set_self hlt e'
  have hother : ∀ j, j ≠ i → (m1.entries.set i e')[j]? = m1.entries[j]? :=
    fun j hj => getElem?_set_of_ne hj e'
  -- the map is the same in all cases
  have hcontents : ∀ m' : Manager l Item,
      (∀ j, j ≠ i → m'.entries[j]?.map data = m1.entries[j]?.map data) →
      m'.entries[i]? = some e' →
      m'.contents = update m.contents (l.getHandleIndex fixedHandle)
        (some (fixedHandle, item)) := by
    intro m' hdata hentry
    rw [hi, ← hgrown.contents]
    exact contents_update hdata hentry hi rfl
  by_cases hhead : m1.firstFreeIndex = i
  · -- the head of the list
    rw [if_pos hhead]
    subst hhead
    obtain ⟨rest, hfree⟩ := h1.exists_cons hlt
    rw [hfree] at h1
    refine ⟨_, rfl, .stored htype hlive (h1.takeHead hbits hmax hold hi rfl) ?_⟩
    exact hcontents _ (fun j hj => congrArg _ (hother j hj)) hset
  rw [if_neg hhead]
  by_cases halloc : old.liveGeneration = l.getHandleGeneration old.handle
  · -- live already
    rw [if_pos halloc]
    have hlive1 : m1.liveAt i = true :=
      (liveAt_of_entry hold).mpr ⟨h1.index_eq i old hold hmax, halloc.symm⟩
    have hholds : ({ m1 with entries := m1.entries.set i e' } : Manager l Item).Holds
        (free ++ more) :=
      h1.replace (fun j hj => congrArg _ (hother j hj)) (by simp) hset hi hlive1 rfl
        (fun j _ => nextFree_set hold hnext j) rfl rfl
    refine ⟨_, rfl, .stored htype hlive hholds ?_⟩
    exact hcontents _ (fun j hj => congrArg _ (hother j hj)) hset
  · -- in the middle of the list
    rw [if_neg halloc]
    have hdead : m1.liveAt i = false := by
      rw [← Bool.not_eq_true, liveAt_of_entry hold]
      exact fun hl => halloc hl.2.symm
    obtain ⟨xs, p, ys, hfree⟩ := h1.exists_previous ((h1.mem_free i).mpr ⟨hlt, hdead⟩) hhead
    rw [hfree] at h1
    have hnodup := h1.nodup
    obtain ⟨prev, hprev⟩ := h1.exists_entry (i := p) (by simp)
    have hpi : p ≠ i := by
      rintro rfl
      simp [nodup_append] at hnodup
    rw [findPrevious_set h1 hold hnext, Checked.ok_bind, readAt_of_getElem? ((hother p hpi).trans hprev), Checked.ok_bind]
    refine ⟨_, rfl, .stored htype hlive (h1.unlink hbits hmax hold hprev hi rfl) ?_⟩
    apply hcontents
    · intro j hji
      by_cases hjp : j = p
      · subst hjp
        have hjlt := lt_length_of_entry hprev
        rw [List.getElem?_set_self (by simpa using hjlt), hprev]
        rfl
      · rw [getElem?_set_ne (Ne.symm hjp), hother j hji]
    · rw [getElem?_set_ne hpi, hset]

/-! ### `remove` and `clear` -/

theorem live_le (h : m.Holds free) : m.liveEntries ≤ l.maxElements := by
  obtain ⟨low, hfree, -⟩ := h.high
  have hcount := h.count
  rw [hfree, length_append, length_range'] at hcount
  omega

theorem remove (hbits : 2 ≤ l.generationBits) (h : m.Holds free) {hdl : Handle}
    (hlive : (m.get hdl).isSome = true → m.liveAt (l.getHandleIndex hdl) = true) :
    ∃ m', m.remove hdl = .ok m' ∧ (∃ free', m'.Holds free') ∧ m'.contents = if (m.get hdl).isSome
        then Function.update m.contents (l.getHandleIndex hdl) none else m.contents := by
  unfold Manager.remove
  cases hget : (m.get hdl).isSome with
  | false =>
    refine ⟨m, ?_, ⟨free, h⟩, rfl⟩
    rw [if_pos (by simpa using hget)]
  | true =>
    have hlive := hlive hget
    rw [if_neg (by simpa [← isSome_iff_ne_none] using hget)]
    dsimp only
    generalize l.getHandleIndex hdl = i at hlive ⊢
    obtain ⟨hmax, e, he, hindex, hgen⟩ := exists_of_liveAt hlive
    obtain ⟨hlt, hpos, hne⟩ := Layout.bump_spec hbits (h.generation_lt i e he)
    have hlen := lt_length_of_entry he
    have hpow : l.maxElements < 2 ^ 64 := by
      have := l.total
      exact Nat.pow_lt_pow_right (by decide) (by omega)
    have hsize := h.live_le
    set e' : Entry Item := { e with
      liveGeneration := l.bump e.liveGeneration
      nextFreeIndex := m.firstFreeIndex } with he'
    have hset := getElem?_set_self hlen e'
    have hsame : l.getHandleIndex e'.handle = i := hindex
    have hdead : l.getHandleGeneration e'.handle ≠ e'.liveGeneration :=
      fun heq => hne (heq.symm.trans hgen)
    refine ⟨⟨m.entries.set i e', i, subNat 64 m.liveEntries 1⟩,
      by rw [readAt_of_getElem? he]; rfl, ⟨i :: free, ?_⟩, ?_⟩
    · refine release (fun j hj => congrArg _ (getElem?_set_of_ne hj e')) (length_set ..) hset
        hsame h hlive hdead hlt hpos ⟨rfl, ?_⟩ ?_ (by omega)
      · have hnext : (⟨m.entries.set i e', i, subNat 64 m.liveEntries 1⟩ :
            Manager l Item).nextFree i = m.firstFreeIndex := by
          rw [nextFree, hset]
          rfl
        dsimp only
        rw [hnext, length_set]
        apply h.path.congr
        intro j hj
        have hji : j ≠ i := fun heq => h.not_mem_of_liveAt hlive (heq ▸ hj)
        simp only [nextFree, getElem?_set_of_ne hji e']
      · rfl
    · rw [if_pos rfl]
      funext j
      by_cases hji : j = i
      · subst hji
        rw [update_self]
        apply contents_of_not_liveAt
        rw [← Bool.not_eq_true, liveAt_of_entry hset]
        exact fun hl => hdead hl.2
      · rw [update_of_ne hji]
        exact contents_congr (congrArg _ (getElem?_set_of_ne hji e'))

theorem contents_clear [Inhabited Item] (hbits : 2 ≤ l.generationBits) (h : m.Holds free) :
    m.clear.contents = fun _ => none := by
  funext i
  have hclear := h.clear hbits
  apply contents_of_not_liveAt
  by_cases hi : i < m.clear.entries.length
  · apply ((hclear.mem_free i).mp _).2
    rw [mem_range]
    have hlen : m.clear.entries.length = m.entries.length := by
      show (m.reserve m.entries.length).entries.length = _
      rw [reserve_all, length_mapIdx]
    omega
  · exact liveAt_of_none (getElem?_eq_none (by omega))

theorem contents_new [Inhabited Item] (hbits : 2 ≤ l.generationBits) (initialItems : ℕ) :
    (Manager.new l initialItems : Manager l Item).contents = fun _ => none := by
  funext i
  have hnew : (Manager.new l initialItems : Manager l Item).Holds _ := Holds.new hbits initialItems
  have hcount := hnew.count
  apply contents_of_not_liveAt
  by_cases hi : i < (Manager.new l initialItems : Manager l Item).entries.length
  · apply ((hnew.mem_free i).mp _).2
    rw [mem_range]
    rw [length_range] at hcount
    have hzero : (Manager.new l initialItems : Manager l Item).liveEntries = 0 := rfl
    omega
  · exact liveAt_of_none (getElem?_eq_none (by omega))

end Holds

end Manager

end AndroidEmu.EntityManager
