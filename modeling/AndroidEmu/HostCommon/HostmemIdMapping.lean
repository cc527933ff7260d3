import Mathlib.Tactic

/-!
# Ids of host memory

`HostmemIdMapping` of `host-common/HostmemIdMapping.cpp`. A caller may bring its own id, which sets
the counter to the id behind it, one that may be in use. An id that is registered again keeps its
first entry.
-/

namespace AndroidEmu.HostCommon

open Function List Option

structure MemEntry where
  hva : UInt64
  size : UInt64
  registerFixed : Bool
  fixedId : UInt64
  caching : UInt32
  deriving DecidableEq

structure HostmemEntry where
  id : UInt64
  hva : UInt64
  size : UInt64
  caching : UInt32
  deriving DecidableEq

def kInvalidHostmemId : UInt64 := 0

/-- The entry that is kept under an id. -/
def MemEntry.under (e : MemEntry) (id : UInt64) : HostmemEntry := ⟨id, e.hva, e.size, e.caching⟩

/-- The entry is registered by `add`: its address and its size are not zero. -/
def MemEntry.Usable (e : MemEntry) : Prop := e.hva ≠ 0 ∧ e.size ≠ 0

instance (e : MemEntry) : Decidable e.Usable := inferInstanceAs (Decidable (_ ∧ _))

structure HostmemIdMapping where
  currentId : UInt64
  entries : UInt64 → Option HostmemEntry

namespace HostmemIdMapping

def new : HostmemIdMapping := ⟨1, fun _ => none⟩

/-- An entry that is there stays. -/
def set (m : HostmemIdMapping) (id : UInt64) (entry : HostmemEntry) : HostmemIdMapping :=
  { m with entries := Function.update m.entries id ((m.entries id).or (some entry)) }

/-- `HostmemIdMapping::add`. -/
def add (m : HostmemIdMapping) (e : MemEntry) : HostmemIdMapping × UInt64 :=
  if e.hva = 0 ∨ e.size = 0 then (m, kInvalidHostmemId)
  else
    let (wantedId, currentId) :=
      if e.registerFixed then (e.fixedId, e.fixedId + 1) else (m.currentId, m.currentId + 1)
    ({ m with currentId := currentId }.set wantedId (e.under wantedId), wantedId)

/-- `HostmemIdMapping::remove`. -/
def remove (m : HostmemIdMapping) (id : UInt64) : HostmemIdMapping :=
  { m with entries := Function.update m.entries id none }

/-- `HostmemIdMapping::addMapping`. -/
def addMapping (m : HostmemIdMapping) (id : UInt64) (e : MemEntry) : HostmemIdMapping :=
  m.set id (e.under id)

/-- The entry that stands for no entry. -/
def badEntry : HostmemEntry := ⟨kInvalidHostmemId, 0, 0, 0⟩

/-- `HostmemIdMapping::get`. -/
def get (m : HostmemIdMapping) (id : UInt64) : HostmemEntry :=
  if kInvalidHostmemId = id then badEntry else (m.entries id).getD badEntry

/-- `HostmemIdMapping::clear`. -/
def clear (m : HostmemIdMapping) : HostmemIdMapping := { m with entries := fun _ => none }

end HostmemIdMapping

inductive HostmemCall
  | add (e : MemEntry)
  | addMapping (id : UInt64) (e : MemEntry)
  | remove (id : UInt64)
  | clear
  deriving DecidableEq

def HostmemIdMapping.step (m : HostmemIdMapping) : HostmemCall → HostmemIdMapping
  | .add e => (m.add e).1
  | .addMapping id e => m.addMapping id e
  | .remove id => m.remove id
  | .clear => m.clear

def hostmemAfter : List HostmemCall → HostmemIdMapping
  | [] => .new
  | c :: past => (hostmemAfter past).step c

/-! ### What the calls alone say -/

/-- A registration with an id of the caller. -/
def HostmemCall.fixedId? : HostmemCall → Option UInt64
  | .add e => if e.Usable ∧ e.registerFixed then some e.fixedId else none
  | _ => none

/-- A registration that asks for an id. -/
def HostmemCall.IsFresh : HostmemCall → Prop
  | .add e => e.Usable ∧ e.registerFixed = false
  | _ => False

instance : DecidablePred HostmemCall.IsFresh
  | .add e => inferInstanceAs (Decidable (e.Usable ∧ e.registerFixed = false))
  | .addMapping _ _ => isFalse not_false
  | .remove _ => isFalse not_false
  | .clear => isFalse not_false

/-- The latest id that a caller brought, zero if there is none. -/
def lastFixed (past : List HostmemCall) : UInt64 := (past.findSome? HostmemCall.fixedId?).getD 0

/-- The number of registrations that asked for an id since then. -/
def freshSince (past : List HostmemCall) : ℕ :=
  (past.takeWhile fun c => c.fixedId?.isNone).countP fun c => c.IsFresh

def nextId (past : List HostmemCall) : UInt64 := lastFixed past + 1 + UInt64.ofNat (freshSince past)

def HostmemCall.registers (past : List HostmemCall) : HostmemCall → Option (UInt64 × MemEntry)
  | .add e =>
    if e.Usable then some (if e.registerFixed then e.fixedId else nextId past, e) else none
  | .addMapping id e => some (id, e)
  | _ => none

/-- The entry that was registered latest for an id and not removed. -/
def latest : List HostmemCall → UInt64 → Option HostmemEntry
  | [], _ => none
  | .remove i :: past, id => if id = i then none else latest past id
  | .clear :: _, _ => none
  | c :: past, id =>
    match c.registers past with
    | some (i, e) => if id = i then some (e.under i) else latest past id
    | none => latest past id

/-! ### The counter -/

theorem lastFixed_cons (c : HostmemCall) (past : List HostmemCall) :
    lastFixed (c :: past) = c.fixedId?.getD (lastFixed past) := by
  rw [lastFixed, findSome?_cons]
  cases c.fixedId? <;> rfl

theorem freshSince_cons (c : HostmemCall) (past : List HostmemCall) : freshSince (c :: past) =
      if c.fixedId?.isNone then freshSince past + if c.IsFresh then 1 else 0 else 0 := by
  rw [freshSince, takeWhile_cons]
  split_ifs with hfixed hfresh
  · rw [countP_cons_of_pos (by simpa using hfresh)]
    rfl
  · rw [countP_cons_of_neg (by simpa using hfresh)]
    rfl
  · rfl

variable {e : MemEntry}

theorem add_of_not_usable (he : ¬ e.Usable) (m : HostmemIdMapping) :
    m.add e = (m, kInvalidHostmemId) := by
  apply if_pos
  by_contra hne
  exact he ⟨fun h => hne (.inl h), fun h => hne (.inr h)⟩

open HostmemIdMapping

theorem add_of_usable (he : e.Usable) (m : HostmemIdMapping) : m.add e =
      let id := if e.registerFixed then e.fixedId else m.currentId
      ({ m with currentId := id + 1 }.set id (e.under id), id) := by
  have hne : ¬ (e.hva = 0 ∨ e.size = 0) := by
    rintro (h | h)
    · exact he.1 h
    · exact he.2 h
  rw [add, if_neg hne]
  cases e.registerFixed <;> rfl

open HostmemCall

/-- The counter is one behind the latest id of a caller, and has gone on by the registrations
since then. -/
theorem currentId_after (past : List HostmemCall) :
    (hostmemAfter past).currentId = nextId past := by
  induction past with
  | nil => rfl
  | cons c past ih =>
    rw [hostmemAfter, nextId, lastFixed_cons, freshSince_cons]
    cases c with
    | add e =>
      by_cases he : e.Usable
      · rw [step, add_of_usable he]
        cases hfixed : e.registerFixed with
        | true => simp [HostmemIdMapping.set, fixedId?, he, hfixed]
        | false =>
          have hfresh : (add e).IsFresh := ⟨he, hfixed⟩
          have hnone : (add e).fixedId? = none := by simp [fixedId?, hfixed]
          rw [hnone, isNone_none, if_pos rfl, if_pos hfresh, UInt64.ofNat_add, ← UInt64.add_assoc]
          exact congrArg (· + 1) ih
      · rw [step, add_of_not_usable he]
        simpa [fixedId?, IsFresh, he, nextId] using ih
    | addMapping id e => exact ih
    | remove id => exact ih
    | clear => exact ih

/-! ### The entries -/

section Entries

variable {past : List HostmemCall} {c : HostmemCall} {id : UInt64} {e : MemEntry}

theorem entries_after_of_registers (h : c.registers past = some (id, e)) :
    (hostmemAfter (c :: past)).entries = Function.update (hostmemAfter past).entries id
      (((hostmemAfter past).entries id).or (some (e.under id))) := by
  cases c with
  | add e' =>
    by_cases he : e'.Usable
    · rw [registers, if_pos he] at h
      obtain ⟨rfl, rfl⟩ := Prod.mk.inj (some.inj h)
      rw [hostmemAfter, step, add_of_usable he, currentId_after]
      rfl
    · rw [registers, if_neg he] at h
      cases h
  | addMapping i e' =>
    obtain ⟨rfl, rfl⟩ := Prod.mk.inj (some.inj h)
    rfl
  | remove i => cases h
  | clear => cases h

theorem latest_add (past : List HostmemCall) (i : UInt64) (e : MemEntry) :
    latest (.add e :: past) i =
      match (add e).registers past with
      | some (id, e) => if i = id then some (e.under id) else latest past i
      | none => latest past i :=
  rfl

theorem latest_of_registers (h : c.registers past = some (id, e)) (i : UInt64) :
    latest (c :: past) i = if i = id then some (e.under id) else latest past i := by
  cases c with
  | add e' => rw [latest_add, h]
  | addMapping i' e' =>
    obtain ⟨rfl, rfl⟩ := Prod.mk.inj (some.inj h)
    rfl
  | remove i' => cases h
  | clear => cases h

/-- A call that does not register keeps the entry of an id, or removes it from the map and from
the latest entries. -/
theorem entries_after_of_not_registers (h : c.registers past = none) (i : UInt64) :
    ((hostmemAfter (c :: past)).entries i = (hostmemAfter past).entries i ∧
        latest (c :: past) i = latest past i) ∨
      ((hostmemAfter (c :: past)).entries i = none ∧ latest (c :: past) i = none) := by
  cases c with
  | add e' =>
    have he : ¬ e'.Usable := fun he => by simp [registers, he] at h
    left
    rw [hostmemAfter, step, add_of_not_usable he]
    exact ⟨rfl, by rw [latest_add, h]⟩
  | addMapping i' e' => cases h
  | remove i' =>
    by_cases hi : i = i'
    · subst hi
      right
      exact ⟨update_self .., if_pos rfl⟩
    · left
      exact ⟨update_of_ne hi .., if_neg hi⟩
  | clear => exact .inr ⟨rfl, rfl⟩

theorem entries_after_eq_none (past : List HostmemCall) (i : UInt64) :
    (hostmemAfter past).entries i = none ↔ latest past i = none := by
  induction past with
  | nil => exact Iff.rfl
  | cons c past ih =>
    cases h : c.registers past with
    | none =>
      obtain ⟨hentries, hlatest⟩ | ⟨hentries, hlatest⟩ := entries_after_of_not_registers h i
      · rw [hentries, hlatest, ih]
      · exact iff_of_true hentries hlatest
    | some r =>
      obtain ⟨id, e⟩ := r
      rw [entries_after_of_registers h, latest_of_registers h]
      by_cases hi : i = id
      · rw [hi, update_self, if_pos rfl]
        simp
      · rw [update_of_ne hi, if_neg hi, ih]

end Entries

/-! ### Orderly calls -/

/-- What is asked of the mapping at every moment: an id stands for the entry registered latest for
it, and an id that is given is valid and not in use. -/
structure Serves (h : List HostmemCall) : Prop where
  get_eq : ∀ past, past <:+ h → ∀ id entry, latest past id = some entry →
    (hostmemAfter past).get id = entry
  fresh : ∀ e past, .add e :: past <:+ h → e.Usable → e.registerFixed = false →
    ((hostmemAfter past).add e).2 ≠ kInvalidHostmemId ∧
    (hostmemAfter past).entries ((hostmemAfter past).add e).2 = none

/-- The calls of a history: an id given by the counter is not zero and not in use; an id of a caller
is not in use or is registered with its entry once more; and only the entry of zeros is kept under
the id zero. -/
structure Orderly (h : List HostmemCall) : Prop where
  fresh : ∀ c past, c :: past <:+ h → c.IsFresh →
    nextId past ≠ kInvalidHostmemId ∧ latest past (nextId past) = none
  again : ∀ c past, c :: past <:+ h → ∀ id e, c.registers past = some (id, e) →
    latest past id = none ∨ latest past id = some (e.under id)
  zero : ∀ c past, c :: past <:+ h → ∀ e, c.registers past = some (kInvalidHostmemId, e) →
    e.under kInvalidHostmemId = HostmemIdMapping.badEntry

theorem Orderly.entries_eq {h : List HostmemCall} (ho : Orderly h) :
    ∀ past, past <:+ h → (∀ id, (hostmemAfter past).entries id = latest past id) ∧
      ∀ entry, latest past kInvalidHostmemId = some entry → entry = HostmemIdMapping.badEntry := by
  intro past
  induction past with
  | nil => exact fun _ => ⟨fun _ => rfl, fun _ h => by cases h⟩
  | cons c past ih =>
    intro hsuffix
    obtain ⟨hentries, hzero⟩ := ih ((suffix_cons c past).trans hsuffix)
    cases hr : c.registers past with
    | none =>
      refine ⟨fun id => ?_, fun entry hentry => ?_⟩
      · obtain ⟨hmap, hlatest⟩ | ⟨hmap, hlatest⟩ := entries_after_of_not_registers hr id
        · rw [hmap, hlatest, hentries]
        · rw [hmap, hlatest]
      · obtain ⟨-, hlatest⟩ | ⟨-, hlatest⟩ := entries_after_of_not_registers hr kInvalidHostmemId
        · exact hzero entry (hlatest ▸ hentry)
        · rw [hlatest] at hentry
          cases hentry
    | some r =>
      obtain ⟨i, e⟩ := r
      refine ⟨fun id => ?_, fun entry hentry => ?_⟩
      · rw [entries_after_of_registers hr, latest_of_registers hr, hentries]
        by_cases hid : id = i
        · rw [hid, update_self, if_pos rfl]
          obtain hnone | hsame := ho.again c past hsuffix i e hr
          · rw [hnone, none_or]
          · rw [hsame, some_or]
        · rw [update_of_ne hid, if_neg hid, hentries]
      · rw [latest_of_registers hr] at hentry
        split_ifs at hentry with hi
        · subst hi
          rw [← some.inj hentry]
          exact ho.zero c past hsuffix e hr
        · exact hzero entry hentry

theorem add_fresh (he : e.Usable) (hfresh : e.registerFixed = false)
    (past : List HostmemCall) : ((hostmemAfter past).add e).2 = nextId past := by
  rw [add_of_usable he, hfresh, ← currentId_after]
  rfl

/-- In every history, ids stand for their latest entries and fresh ids are valid and not in use, if
and only if the calls are orderly. -/
theorem serves_iff_orderly (h : List HostmemCall) : Serves h ↔ Orderly h := by
  constructor
  · intro hs
    have hget := hs.get_eq
    refine ⟨fun c past hsuffix hfresh => ?_, fun c past hsuffix id e hr => ?_,
      fun c past hsuffix e hr => ?_⟩
    · cases c with
      | add e =>
        have hid := hs.fresh e past hsuffix hfresh.1 hfresh.2
        rw [add_fresh hfresh.1 hfresh.2] at hid
        exact ⟨hid.1, (entries_after_eq_none past _).mp hid.2⟩
      | _ => exact absurd hfresh not_false
    · cases hlatest : latest past id with
      | none => exact .inl rfl
      | some entry =>
        right
        -- the entry that is there is seen before the call and after it
        have hbefore := hget past ((suffix_cons c past).trans hsuffix) id entry hlatest
        have hafter := hget (c :: past) hsuffix id (e.under id)
          (by rw [latest_of_registers hr, if_pos rfl])
        have hsome : (hostmemAfter past).entries id ≠ none := by
          rw [Ne, entries_after_eq_none, hlatest]
          exact some_ne_none entry
        obtain ⟨x, hx⟩ := ne_none_iff_exists'.mp hsome
        have hsame : (hostmemAfter (c :: past)).get id = (hostmemAfter past).get id := by
          rw [HostmemIdMapping.get, HostmemIdMapping.get, entries_after_of_registers hr,
            update_self, hx, some_or]
        rw [← hbefore, ← hsame, hafter]
    · have hafter := hget (c :: past) hsuffix kInvalidHostmemId (e.under kInvalidHostmemId)
        (by rw [latest_of_registers hr, if_pos rfl])
      exact hafter.symm.trans (if_pos rfl)
  · intro ho
    refine ⟨fun past hsuffix id entry hlatest => ?_, fun e past hsuffix he hfresh => ?_⟩
    · obtain ⟨hentries, hzero⟩ := ho.entries_eq past hsuffix
      rw [HostmemIdMapping.get]
      split_ifs with hid
      · subst hid
        exact (hzero entry hlatest).symm
      · rw [hentries, hlatest]
        rfl
    · obtain ⟨hvalid, hnew⟩ := ho.fresh _ past hsuffix ⟨he, hfresh⟩
      rw [add_fresh he hfresh]
      exact ⟨hvalid, (entries_after_eq_none past _).mpr hnew⟩

/-- Four histories, the latest call first. An id that was brought twice keeps its first entry. An id
below one in use sets the counter back, and an id from `addMapping` is not seen by it. The greatest
id sets it to the invalid one. -/
theorem ids_are_given_twice : let fresh : MemEntry := ⟨0x1000, 0x1000, false, 0, 0⟩
    let fixed : UInt64 → UInt64 → MemEntry := fun hva id => ⟨hva, 0x1000, true, id, 0⟩
    ¬ Serves [.add (fixed 0x2000 5), .add (fixed 0x1000 5)] ∧
      ¬ Serves [.add fresh, .add (fixed 0x1000 1), .add (fixed 0x1000 2)] ∧
      ¬ Serves [.add fresh, .addMapping 1 fresh] ∧
      ¬ Serves [.add fresh, .add (fixed 0x1000 0xffffffffffffffff)] := by
  refine ⟨fun hs => ?_, fun hs => ?_, fun hs => ?_, fun hs => ?_⟩
  · have hget := hs.get_eq _ suffix_rfl 5 ⟨5, 0x2000, 0x1000, 0⟩ (by decide +kernel)
    revert hget
    decide +kernel
  · have hnew := (hs.fresh _ _ suffix_rfl (by decide) rfl).2
    revert hnew
    decide +kernel
  · have hnew := (hs.fresh _ _ suffix_rfl (by decide) rfl).2
    revert hnew
    decide +kernel
  · have hvalid := (hs.fresh _ _ suffix_rfl (by decide) rfl).1
    revert hvalid
    decide +kernel

end AndroidEmu.HostCommon
