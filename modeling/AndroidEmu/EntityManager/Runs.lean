import AndroidEmu.EntityManager.Generations

/-!
# Runs of the entity manager

A free entry has the generation its next user will get, so a handle that carries it finds the free
entry, and `remove` puts it into the free list a second time.
-/

namespace AndroidEmu.EntityManager

open CS Manager

variable {l : Layout} {Item : Type}

/-! ### Steps -/

/-- The calls that change a manager. -/
inductive Op (Item : Type)
  | add (item : Item) (type : ℕ)
  | addFixed (h : Handle) (item : Item) (type : ℕ)
  | remove (h : Handle)
  | clear

/-- A manager, and for each index the handle and the item last stored under it, unless they
were removed since. -/
structure Tracked (l : Layout) (Item : Type) where
  manager : Manager l Item
  stored : ℕ → Option (Handle × Item)

/-- An entry that the handle finds is live. -/
def FindsLive (m : Manager l Item) (h : Handle) : Prop :=
  (m.get h).isSome = true → m.liveAt (l.getHandleIndex h) = true

instance (m : Manager l Item) (h : Handle) : Decidable (FindsLive m h) :=
  inferInstanceAs (Decidable (_ → _))

/-- A `remove` finds no free entry. -/
def RemovesLive (t : Tracked l Item) : Op Item → Prop
  | .remove h => FindsLive t.manager h
  | _ => True

instance (t : Tracked l Item) : DecidablePred (RemovesLive t)
  | .remove _ => inferInstanceAs (Decidable (FindsLive _ _))
  | .add _ _ | .addFixed _ _ _ | .clear => isTrue trivial

namespace Tracked

/-- The handle stored under the index of `h` carries the generation of `h`. -/
def names (t : Tracked l Item) (h : Handle) : Bool :=
  (t.stored (l.getHandleIndex h)).any fun p => l.getHandleGeneration p.1 = l.getHandleGeneration h

/-- The free list is in order and the manager holds what was stored. -/
def Inv (t : Tracked l Item) : Prop :=
  (∃ free, t.manager.Holds free) ∧ t.manager.contents = t.stored

variable {t : Tracked l Item}

theorem Inv.names_eq (hinv : t.Inv) {h : Handle} (hlive : FindsLive t.manager h) :
    t.names h = (t.manager.get h).isSome := by
  rw [names, ← hinv.2]
  cases hc : t.manager.contents (l.getHandleIndex h) with
  | none =>
    have hdead := t.manager.isSome_contents (l.getHandleIndex h)
    rw [hc] at hdead
    cases hget : (t.manager.get h).isSome with
    | false => rfl
    | true => exact hdead.trans (hlive hget)
  | some p =>
    have hlive : t.manager.liveAt (l.getHandleIndex h) = true := by
      rw [← isSome_contents, hc]
      rfl
    obtain ⟨-, e, he, -, hgen⟩ := exists_of_liveAt hlive
    rw [contents_of_liveAt he hlive] at hc
    obtain rfl := Option.some.inj hc
    rw [Option.any_some, Bool.eq_iff_iff, decide_eq_true_iff, hgen, isSome_get_iff]
    constructor
    · exact fun heq => ⟨e, he, heq⟩
    · rintro ⟨e1, he1, heq⟩
      rw [he] at he1
      obtain rfl := Option.some.inj he1
      exact heq

variable [Inhabited Item]

def new (l : Layout) (initialItems : ℕ) : Tracked l Item := ⟨.new l initialItems, fun _ => none⟩

def step (t : Tracked l Item) : Op Item → Checked (Tracked l Item × Handle)
  | .add item type => do
    let (m, h) ← t.manager.add item type
    let stored := if h = invalidHandle then t.stored
      else Function.update t.stored (l.getHandleIndex h) (some (h, item))
    return (⟨m, stored⟩, h)
  | .addFixed h item type => do
    let (m, r) ← t.manager.addFixed h item type
    let stored := if type = 0 ∨ t.manager.liveEntries = l.maxElements then t.stored
      else Function.update t.stored (l.getHandleIndex h) (some (h, item))
    return (⟨m, stored⟩, r)
  | .remove h => do
    let m ← t.manager.remove h
    let stored := if t.names h then Function.update t.stored (l.getHandleIndex h) none
      else t.stored
    return (⟨m, stored⟩, invalidHandle)
  | .clear => return (⟨t.manager.clear, fun _ => none⟩, invalidHandle)

/-- What is right about a manager: the links from `mFirstFreeIndex` visit each entry that is not
live once and end at the size of the array; the live entries are counted; `add` never reuses a live
index, and refuses only type zero or when all are live; the items last stored are found; and the
loop of `addFixed` ends. -/
structure Sound (t : Tracked l Item) : Prop where
  free_list : ∃ free,
    Path (fun i => some (t.manager.nextFree i)) (some t.manager.firstFreeIndex) free
      (some t.manager.entries.length) ∧
    free.Nodup ∧ ∀ i, i ∈ free ↔ i < t.manager.entries.length ∧ t.manager.liveAt i = false
  live_count :
    t.manager.liveEntries = ((List.range t.manager.entries.length).filter t.manager.liveAt).length
  add : ∀ item type, ∃ m h, t.manager.add item type = .ok (m, h) ∧
    (h = invalidHandle → type = 0 ∨ ∀ i, i < l.maxElements → t.manager.liveAt i = true) ∧
    (h ≠ invalidHandle → t.manager.liveAt (l.getHandleIndex h) = false)
  live_iff : ∀ i, t.manager.liveAt i = (t.stored i).isSome
  get_stored : ∀ i h item, t.stored i = some (h, item) → t.manager.get h = some item
  addFixed : ∀ h item type, ∃ r, t.manager.addFixed h item type = .ok r

theorem Inv.new (hbits : 2 ≤ l.generationBits) (initialItems : ℕ) :
    (Tracked.new l initialItems : Tracked l Item).Inv :=
  ⟨⟨_, .new hbits initialItems⟩, Holds.contents_new hbits initialItems⟩

theorem step_inv (hbits : 2 ≤ l.generationBits) (t : Tracked l Item) (op : Op Item) (hinv : t.Inv)
    (hop : RemovesLive t op) : (t.step op).Ensures (fun p => p.1.Inv) fun _ => False := by
  obtain ⟨⟨free, hholds⟩, hcontents⟩ := hinv
  cases op with
  | add item type =>
    obtain ⟨r, hadd, hadded⟩ := hholds.add hbits item type
    rw [step, hadd]
    cases hadded with
    | refused _ => exact ⟨⟨free, hholds⟩, by simpa using hcontents⟩
    | added holds valid _ _ contents =>
      refine ⟨⟨_, holds⟩, ?_⟩
      rw [if_neg valid, ← hcontents, contents]
  | addFixed h item type =>
    obtain ⟨r, hadd, hfixed⟩ := hholds.addFixed hbits h item type
    rw [step, hadd]
    cases hfixed with
    | refused hfull => exact ⟨⟨free, hholds⟩, by simpa [hfull] using hcontents⟩
    | stored htype hroom holds contents =>
      refine ⟨⟨_, holds⟩, ?_⟩
      rw [if_neg (not_or.mpr ⟨htype, hroom⟩), ← hcontents, contents]
  | remove h =>
    obtain ⟨m, hremove, hm, contents⟩ := hholds.remove hbits hop
    rw [step, hremove]
    refine ⟨hm, ?_⟩
    rw [Inv.names_eq ⟨⟨free, hholds⟩, hcontents⟩ hop, ← hcontents, contents]
  | clear => exact ⟨⟨_, hholds.clear hbits⟩, hholds.contents_clear hbits⟩

theorem Inv.sound (hbits : 2 ≤ l.generationBits) (hinv : t.Inv) : t.Sound := by
  obtain ⟨⟨free, hholds⟩, hcontents⟩ := hinv
  constructor
  case free_list => exact ⟨free, hholds.path, hholds.nodup, hholds.mem_free⟩
  case live_count => exact hholds.live_count
  case add =>
    intro item type
    obtain ⟨r, hadd, hadded⟩ := hholds.add hbits item type
    cases hadded with
    | refused hfull => exact ⟨_, _, hadd, fun _ => hfull, fun hne => absurd rfl hne⟩
    | added _ valid _ dead _ => exact ⟨_, _, hadd, fun heq => absurd heq valid, fun _ => dead⟩
  case live_iff =>
    intro i
    rw [← hcontents, isSome_contents]
  case get_stored =>
    intro i h item hstored
    rw [← hcontents] at hstored
    exact (get_of_contents hstored).2
  case addFixed =>
    intro h item type
    obtain ⟨r, hadd, -⟩ := hholds.addFixed hbits h item type
    exact ⟨r, hadd⟩

end Tracked

/-! ### The free list -/

section FreeList

variable [Inhabited Item]

/-- **The free list.** In every run in which no `remove` finds a free entry, no operation
fails, and in every state reached the free list, the count, `add`, `addFixed` and the lookups
of stored handles are right. -/
theorem free_list_sound (hbits : 2 ≤ l.generationBits) (initialItems : ℕ) (ops : List (Op Item))
    (h : Meets Tracked.step RemovesLive (Tracked.new l initialItems : Tracked l Item) ops) :
    (run Tracked.step (Tracked.new l initialItems : Tracked l Item) ops).2.Ensures Tracked.Sound
      fun _ => False :=
  (run_invariant (Tracked.step_inv hbits) ops _ (.new hbits initialItems) h).mono
    fun _ hinv => hinv.sound hbits

end FreeList

/-- Add, remove and add again, with the second of the two handles a stale one by then. -/
def reuseScript : List (Op ℕ) :=
  [.add 7 1, .remove 0x0001000200000000, .add 8 1, .remove 0x0001000200000000]

theorem free_list_sound_example : (run Tracked.step (Tracked.new .usual 1) reuseScript).1 =
        [0x0001000200000000, 0, 0x0001000300000000, 0] ∧
      (run Tracked.step (Tracked.new .usual 1) reuseScript).2.Ensures Tracked.Sound
        fun _ => False := by
  refine ⟨by decide +kernel, free_list_sound (by decide) 1 reuseScript ?_⟩
  decide +kernel

/-- A layout with four generations, of which three are used. -/
def Layout.small : Layout := ⟨2, 2, 60, rfl⟩

/-- The generations of the first entry wrap; then its first handle is removed again. -/
def wrapScript : List (Op ℕ) :=
  [.add 1 1, .remove 0x14, .add 2 1, .remove 0x18, .add 3 1, .remove 0x1c, .remove 0x14]

/-- All handles removed were returned before. The last one finds a free entry: the free list
becomes a cycle, the count wraps below zero, and `addFixed` on the other entry never ends. -/
theorem stale_remove_breaks_free_list :
    (run Tracked.step (Tracked.new .small 0) wrapScript).1 = [0x14, 0, 0x18, 0, 0x1c, 0, 0] ∧
    (run Tracked.step (Tracked.new .small 0) wrapScript).2.Ensures (fun t =>
      t.manager.firstFreeIndex = 0 ∧ t.manager.nextFree 0 = 0 ∧
      t.manager.liveEntries = 2 ^ 64 - 1 ∧
      (t.manager.addFixed 0x15 4 1).Ensures (fun _ => False) (· = .endless)) fun _ => False := by
  decide +kernel

/-! ### Lookups -/

/-- The handle is the one last stored under its index, and it was not removed since. -/
def Tracked.Stores (t : Tracked l Item) (h : Handle) : Prop :=
  (t.stored (l.getHandleIndex h)).any (·.1 = h) = true

instance (t : Tracked l Item) (h : Handle) : Decidable (t.Stores h) :=
  inferInstanceAs (Decidable (_ = _))

/-- The lookups succeed exactly on handles that are stored, and `remove` of another word
changes nothing. -/
structure LookedUpRightly (t : Tracked l Item) (h : Handle) : Prop where
  get : (t.manager.get h).isSome = true ↔ t.Stores h
  getConst : (t.manager.getConst h).isSome = true ↔ t.Stores h
  isLive : t.manager.isLive h = true ↔ t.Stores h
  remove : ¬ t.Stores h → t.manager.remove h = .ok t.manager

/-- A manager with the generations that follow from the calls made so far. -/
structure Aged (l : Layout) (Item : Type) where
  tracked : Tracked l Item
  carried : Generations

namespace Aged

variable {a : Aged l Item} {h : Handle}

/-- The calls so far have not brought the index of the word to its generation, unless the word is
stored there itself. -/
def Safe (a : Aged l Item) (h : Handle) : Prop :=
  a.carried (l.getHandleIndex h) = some (l.getHandleGeneration h) → a.tracked.Stores h

instance (a : Aged l Item) (h : Handle) : Decidable (a.Safe h) :=
  inferInstanceAs (Decidable (_ → _))

/-- A `remove` is of a safe word. -/
def RemovesSafely (a : Aged l Item) : Op Item → Prop
  | .remove h => a.Safe h
  | _ => True

instance (a : Aged l Item) : DecidablePred (RemovesSafely a)
  | .remove _ => inferInstanceAs (Decidable (Safe _ _))
  | .add _ _ | .addFixed _ _ _ | .clear => isTrue trivial

def Inv (a : Aged l Item) : Prop := a.tracked.Inv ∧ a.tracked.manager.Carries a.carried

theorem Inv.get_of_stores (hinv : a.Inv) (hs : a.tracked.Stores h) :
    (a.tracked.manager.get h).isSome = true := by
  rw [Tracked.Stores] at hs
  cases hstored : a.tracked.stored (l.getHandleIndex h) with
  | none => simp [hstored] at hs
  | some p =>
    obtain rfl : p.1 = h := by simpa [hstored] using hs
    rw [← hinv.1.2] at hstored
    rw [(get_of_contents hstored).2]
    rfl

theorem Inv.findsLive (hinv : a.Inv) (hsafe : a.Safe h) : FindsLive a.tracked.manager h := by
  intro hget
  have hs := hsafe ((hinv.2.isSome_get_iff h).mp hget)
  rw [← isSome_contents, hinv.1.2]
  rw [Tracked.Stores] at hs
  cases hstored : a.tracked.stored (l.getHandleIndex h) with
  | none => simp [hstored] at hs
  | some p => rfl

/-- A word is looked up rightly exactly if it is safe. -/
theorem Inv.safe_iff (hinv : a.Inv) : a.Safe h ↔ LookedUpRightly a.tracked h := by
  have hget := hinv.2.isSome_get_iff h
  rw [Safe, ← hget]
  constructor
  · intro hsafe
    have hiff : (a.tracked.manager.get h).isSome = true ↔ a.tracked.Stores h :=
      ⟨hsafe, hinv.get_of_stores⟩
    refine ⟨hiff, hiff, by rw [isLive_eq, hiff], fun hnot => ?_⟩
    rw [Manager.remove, if_pos]
    rw [← hiff] at hnot
    simpa using hnot
  · exact fun hright => hright.get.mp

variable [Inhabited Item]

def new (l : Layout) (initialItems : ℕ) : Aged l Item := ⟨.new l initialItems, .new l initialItems⟩

def step (a : Aged l Item) (op : Op Item) : Checked (Aged l Item × Handle) := do
  let (t, r) ← a.tracked.step op
  let carried := match op with
    | .add _ _ => if r = invalidHandle then a.carried else a.carried.store l r
    | .addFixed h _ type =>
      if type = 0 ∨ a.tracked.manager.liveEntries = l.maxElements then a.carried
      else a.carried.store l h
    | .remove h => a.carried.remove l h
    | .clear => a.carried.clear l
  return (⟨t, carried⟩, r)

theorem step_inv (hbits : 2 ≤ l.generationBits) (a : Aged l Item) (op : Op Item) (hinv : a.Inv)
    (hop : RemovesSafely a op) : (a.step op).Ensures (fun p => p.1.Inv) fun _ => False := by
  have htracked := Tracked.step_inv hbits a.tracked op hinv.1 (by
    cases op with
    | remove h => exact hinv.findsLive hop
    | add item type => trivial
    | addFixed h item type => trivial
    | clear => trivial)
  obtain ⟨⟨⟨free, hholds⟩, -⟩, hc⟩ := hinv
  cases hstep : a.tracked.step op with
  | error f =>
    rw [hstep] at htracked
    exact htracked.elim
  | ok p =>
    obtain ⟨t, r⟩ := p
    rw [hstep] at htracked
    rw [step, hstep]
    refine ⟨htracked, ?_⟩
    cases op with
    | add item type =>
      obtain ⟨⟨m, h⟩, hadd, hok⟩ := Checked.bind_eq_ok.mp hstep
      obtain ⟨rfl, rfl⟩ := Checked.pair_inj hok
      obtain ⟨p, hp, hadded⟩ := hholds.add hbits item type
      obtain rfl := Except.ok.inj (hp.symm.trans hadd)
      cases hadded with
      | refused _ => exact hc
      | added _ valid _ _ _ =>
        dsimp only
        rw [if_neg valid]
        exact ((hc.add hbits hholds hadd).resolve_left fun h => valid h.2).2
    | addFixed h item type =>
      obtain ⟨⟨m, h'⟩, hadd, hok⟩ := Checked.bind_eq_ok.mp hstep
      obtain ⟨rfl, rfl⟩ := Checked.pair_inj hok
      obtain ⟨p, hp, hfixed⟩ := hholds.addFixed hbits h item type
      obtain rfl := Except.ok.inj (hp.symm.trans hadd)
      dsimp only
      cases hfixed with
      | refused hfull =>
        rw [if_pos hfull]
        exact hc
      | stored htype hroom _ _ =>
        rw [if_neg (not_or.mpr ⟨htype, hroom⟩)]
        exact hc.addFixed htype hroom hadd
    | remove h =>
      obtain ⟨m, hremove, hok⟩ := Checked.bind_eq_ok.mp hstep
      obtain ⟨rfl, rfl⟩ := Checked.pair_inj hok
      exact hc.remove hremove
    | clear =>
      obtain ⟨rfl, rfl⟩ := Checked.pair_inj hstep
      exact hc.clear

end Aged

/-- **Lookups.** In every run whose `remove`s are safe, a 64-bit word is looked up rightly in the
states reached exactly if it is safe there, and the free list and the count stay right. -/
theorem lookup_exact_iff [Inhabited Item] (hbits : 2 ≤ l.generationBits) (initialItems : ℕ)
    (ops : List (Op Item))
    (hops : Meets Aged.step Aged.RemovesSafely (Aged.new l initialItems : Aged l Item) ops) :
    (run Aged.step (Aged.new l initialItems : Aged l Item) ops).2.Ensures
      (fun a => a.tracked.Sound ∧ ∀ h, a.Safe h ↔ LookedUpRightly a.tracked h)
      fun _ => False := by
  have hinit : (Aged.new l initialItems : Aged l Item).Inv :=
    ⟨.new hbits initialItems, .new initialItems⟩
  apply (run_invariant (Aged.step_inv hbits) ops _ hinit hops).mono
  exact fun a hinv => ⟨hinv.1.sound hbits, fun h => hinv.safe_iff⟩

theorem lookup_exact_iff_example : (run Aged.step (Aged.new .usual 1) reuseScript).2.Ensures
      (fun a => a.tracked.Sound ∧ ∀ h, a.Safe h ↔ LookedUpRightly a.tracked h)
      fun _ => False := by
  apply lookup_exact_iff (by decide) 1 reuseScript
  decide +kernel

/-- A word that was never issued finds the free entry of a new manager, and removing it makes
the count wrap; and the type of a handle does not matter to the lookup. -/
theorem forged_handle_is_found :
    (Tracked.new .usual 1 : Tracked .usual ℕ).manager.isLive 0x0000000200000000 = true ∧
    ((Tracked.new .usual 1 : Tracked .usual ℕ).manager.get 0x0000000200000000).isSome = true ∧
    ((Tracked.new .usual 1 : Tracked .usual ℕ).manager.remove 0x0000000200000000).Ensures
      (fun m => m.liveEntries = 2 ^ 64 - 1) (fun _ => False) ∧
    ((Tracked.new .usual 1 : Tracked .usual ℕ).manager.add 7 1).Ensures
      (fun p => p.2 = 0x0001000200000000 ∧ p.1.get 0x0005000200000000 = some 7)
      fun _ => False := by
  decide +kernel

end AndroidEmu.EntityManager
