import AndroidEmu.EntityManager.Operations

/-!
# Records of an entity manager

A handle names a record while the entry at its index is live and carries its generation. A lookup
asks for the generation only, so that a record that exists is found, but not the other way round.
-/

namespace AndroidEmu.EntityManager

open CS Option

variable {l : Layout} {Item : Type} {g : Handle}

namespace Manager

variable {m m' : Manager l Item} {free : List ℕ} {i : ℕ} {e e' : Entry Item}

theorem add_isOk [Inhabited Item] (m : Manager l Item) (item : Item) (type : ℕ) :
    (m.add item type).IsOk := by
  unfold add
  split_ifs with htype hfull hroom
  · exact ⟨_, rfl⟩
  · exact ⟨_, rfl⟩
  · exact ⟨_, rfl⟩
  · have hlt : m.firstFreeIndex < (m.ensureCapacity m.firstFreeIndex type).entries.length := by
      unfold ensureCapacity Layout.freshEntries
      dsimp only
      split_ifs with hneed
      · rw [List.length_append, List.length_map, List.length_range', Nat.shiftLeft_eq]
        omega
      · omega
    dsimp only
    rw [readAt_of_getElem? (List.getElem?_eq_getElem hlt)]
    exact ⟨_, rfl⟩

theorem remove_isOk (m : Manager l Item) (h : Handle) : (m.remove h).IsOk := by
  unfold remove
  cases hget : m.get h with
  | none => exact ⟨m, rfl⟩
  | some item =>
    obtain ⟨e, he, -⟩ := get_eq_some_iff.mp hget
    dsimp only
    rw [readAt_of_getElem? he]
    exact ⟨_, rfl⟩

/-! ### Records that exist -/

/-- The handle carries the index and the generation of a live entry. -/
def Recorded (m : Manager l Item) (h : Handle) : Prop :=
  ∃ p, m.contents (l.getHandleIndex h) = some p ∧
    l.getHandleGeneration p.1 = l.getHandleGeneration h

instance (m : Manager l Item) (h : Handle) : Decidable (m.Recorded h) :=
  match hc : m.contents (l.getHandleIndex h) with
  | none => isFalse fun ⟨p, hp, _⟩ => by rw [hc] at hp; cases hp
  | some p =>
    decidable_of_iff (l.getHandleGeneration p.1 = l.getHandleGeneration h)
      ⟨fun hg => ⟨p, hc, hg⟩, fun ⟨q, hq, hg⟩ => by rw [hc] at hq; cases hq; exact hg⟩

section Recorded

variable {h : Handle}

theorem recorded_congr (hc : m'.contents (l.getHandleIndex h) = m.contents (l.getHandleIndex h)) :
    m'.Recorded h ↔ m.Recorded h := by
  rw [Recorded, Recorded, hc]

theorem Recorded.isSome_get (hr : m.Recorded h) : (m.get h).isSome = true := by
  obtain ⟨⟨g, item⟩, hc, hgen⟩ := hr
  have hlive : m.liveAt (l.getHandleIndex h) = true := by rw [← isSome_contents, hc]; rfl
  obtain ⟨-, e, he, -, heg⟩ := exists_of_liveAt hlive
  rw [contents_of_liveAt he hlive] at hc
  obtain ⟨rfl, -⟩ := Prod.mk.inj (some.inj hc)
  exact isSome_get_iff.mpr ⟨e, he, heg.symm.trans hgen⟩

theorem Recorded.liveAt (hr : m.Recorded h) : m.liveAt (l.getHandleIndex h) = true := by
  obtain ⟨p, hc, -⟩ := hr
  rw [← isSome_contents, hc]
  rfl

theorem get_remove_of_recorded (hbits : 2 ≤ l.generationBits) (hm : m.Holds free)
    (hr : m.Recorded h) (hremove : m.remove h = .ok m')
    (hindex : l.getHandleIndex g = l.getHandleIndex h)
    (hgen : l.getHandleGeneration g = l.getHandleGeneration h) : m'.get g = none := by
  obtain ⟨e, he, heg⟩ := isSome_get_iff.mp hr.isSome_get
  unfold remove at hremove
  rw [if_neg (by simpa [← isSome_iff_ne_none] using hr.isSome_get)] at hremove
  dsimp only at hremove
  rw [readAt_of_getElem? he] at hremove
  cases hremove
  have hne := (Layout.bump_spec hbits (hm.generation_lt _ e he)).2.2
  unfold get
  rw [hindex]
  rw [getElem?_set_self (lt_length_of_entry he)]
  dsimp only
  rw [hgen, ← heg, if_pos hne]

theorem get_remove_of_ne (hindex : l.getHandleIndex g ≠ l.getHandleIndex h)
    (hremove : m.remove h = .ok m') : m'.get g = m.get g := by
  unfold remove at hremove
  split_ifs at hremove with hnone
  · cases hremove
    rfl
  · obtain ⟨e, -, hremove⟩ := Checked.bind_eq_ok.mp hremove
    cases hremove
    unfold get
    rw [List.getElem?_set_ne (Ne.symm hindex)]

end Recorded

/-! ### Changing an item in place -/

section Modify

variable {h : Handle} {f : Item → Item}

theorem getElem?_modify (m : Manager l Item) (h : Handle) (f : Item → Item) (i : ℕ) :
    (m.modify h f).entries[i]? = m.entries[i]?.map fun e =>
      if (m.get h).isSome ∧ l.getHandleIndex h = i then { e with item := f e.item } else e := by
  unfold modify
  cases hget : m.get h with
  | none => simp
  | some item =>
    by_cases hi : l.getHandleIndex h = i
    · simp [hi]
    · simp [hi]

theorem key_modify (m : Manager l Item) (h : Handle) (f : Item → Item) (i : ℕ) :
    (m.modify h f).entries[i]?.map Entry.key = m.entries[i]?.map Entry.key := by
  rw [getElem?_modify, map_map]
  congr 1
  funext e
  split_ifs
  · rfl
  · rfl

theorem Holds.modify (hm : m.Holds free) : (m.modify h f).Holds free := by
  have hlen : (m.modify h f).entries.length = m.entries.length := by
    unfold Manager.modify
    split_ifs
    · rfl
    · exact List.length_modify ..
  have hfirst : (m.modify h f).firstFreeIndex = m.firstFreeIndex := by
    unfold Manager.modify
    split_ifs
    · rfl
    · rfl
  have hcount : (m.modify h f).liveEntries = m.liveEntries := by
    unfold Manager.modify
    split_ifs
    · rfl
    · rfl
  have hnext : ∀ i, (m.modify h f).nextFree i = m.nextFree i := by
    intro i
    unfold nextFree
    rw [getElem?_modify, map_map]
    congr 2
    funext e
    split_ifs
    · rfl
    · rfl
  constructor
  · rw [hfirst, hlen]
    exact hm.path.congr fun i _ => congrArg some (hnext i)
  · exact hm.nodup
  · intro i
    rw [hm.mem_free, hlen, liveAt_congr (key_modify m h f i)]
  · intro i e he hi
    obtain ⟨e0, he0, hhandle, -⟩ := exists_of_key (key_modify m h f i) he
    rw [← hhandle]
    exact hm.index_eq i e0 he0 hi
  · intro i e he
    obtain ⟨e0, he0, -, hgen⟩ := exists_of_key (key_modify m h f i) he
    rw [← hgen]
    exact hm.generation_lt i e0 he0
  · intro i e hi he
    obtain ⟨e0, he0, -, hgen⟩ := exists_of_key (key_modify m h f i) he
    rw [← hgen]
    exact hm.generation_pos i e0 hi he0
  · rw [hlen]
    exact hm.high
  · rw [hcount, hlen]
    exact hm.count

theorem fst_contents (m : Manager l Item) (i : ℕ) :
    (m.contents i).map Prod.fst = if m.liveAt i then m.entries[i]?.map Entry.handle else none := by
  unfold contents
  split_ifs
  · rw [map_map]
    rfl
  · rfl

theorem recorded_iff_fst :
    m.Recorded h ↔ ∃ g, (m.contents (l.getHandleIndex h)).map Prod.fst = some g ∧
    l.getHandleGeneration g = l.getHandleGeneration h := by
  constructor
  · rintro ⟨p, hp, hgen⟩
    exact ⟨p.1, by rw [hp]; rfl, hgen⟩
  · rintro ⟨g, hg, hgen⟩
    obtain ⟨p, hp, rfl⟩ := map_eq_some_iff.mp hg
    exact ⟨p, hp, hgen⟩

@[simp] theorem recorded_modify : (m.modify h f).Recorded g ↔ m.Recorded g := by
  have hhandle : ∀ i : ℕ,
      (m.modify h f).entries[i]?.map Entry.handle = m.entries[i]?.map Entry.handle := by
    intro i
    have hkey := congrArg (Option.map Prod.fst) (key_modify m h f i)
    rwa [map_map, map_map] at hkey
  rw [recorded_iff_fst, recorded_iff_fst, fst_contents, fst_contents,
    liveAt_congr (key_modify m h f _), hhandle]

theorem get_modify (m : Manager l Item) (h : Handle) (f : Item → Item) (g : Handle) :
    ((m.modify h f).get g).isSome = (m.get g).isSome := by
  rw [Bool.eq_iff_iff, isSome_get_iff, isSome_get_iff]
  have hkey := key_modify m h f (l.getHandleIndex g)
  constructor
  · rintro ⟨e, he, hgen⟩
    obtain ⟨e0, he0, -, hgen0⟩ := exists_of_key hkey he
    exact ⟨e0, he0, hgen0.trans hgen⟩
  · rintro ⟨e, he, hgen⟩
    obtain ⟨e0, he0, -, hgen0⟩ := exists_of_key hkey.symm he
    exact ⟨e0, he0, hgen0.trans hgen⟩

end Modify

end Manager

end AndroidEmu.EntityManager
