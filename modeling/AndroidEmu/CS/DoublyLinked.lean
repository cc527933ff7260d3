import AndroidEmu.CS.SinglyLinked

/-!
# Doubly linked lists

Nodes carry their own links. `Links.IsList` states what a list holds: neighbours point at each
other, the ends point nowhere, and nodes outside the list have no links at all. The last part is
what makes "both links are null and it is not the first node" a membership test.
-/

namespace CS

open List Function

structure Links (α : Type) where
  next : α → Option α
  prev : α → Option α

namespace Links

variable {α : Type}

/-! ### The list -/

/-- The links and the first pointer hold the list: the links of a member are its
neighbours, and other nodes have none. -/
structure IsList (l : Links α) (first : Option α) (xs : List α) : Prop where
  first_eq : first = xs.head?
  nodup : xs.Nodup
  next_eq : ∀ {p a q}, xs = p ++ a :: q → l.next a = q.head?
  prev_eq : ∀ {p a q}, xs = p ++ a :: q → l.prev a = p.getLast?
  next_outside : ∀ a, a ∉ xs → l.next a = none
  prev_outside : ∀ a, a ∉ xs → l.prev a = none

namespace IsList

variable {l : Links α} {first : Option α} {xs : List α} {a b : α}

/-- No links and no first node make the empty list. -/
theorem empty (hnext : ∀ a, l.next a = none) (hprev : ∀ a, l.prev a = none) : l.IsList none [] where
  first_eq := rfl
  nodup := nodup_nil
  next_eq h := by simp at h
  prev_eq h := by simp at h
  next_outside a _ := hnext a
  prev_outside a _ := hprev a

section

variable (h : l.IsList first xs)

include h

/-- What the next link of a member points at is a member, whose prev link points back. -/
theorem of_next (hab : l.next a = some b) : a ∈ xs ∧ b ∈ xs ∧ l.prev b = some a := by
  have ha : a ∈ xs := by
    by_contra hout
    rw [h.next_outside a hout] at hab
    simp at hab
  obtain ⟨pre, post, hxs⟩ := append_of_mem ha
  obtain ⟨post', rfl⟩ : ∃ post', post = b :: post' := by
    rw [h.next_eq hxs] at hab
    exact head?_eq_some_iff.mp hab
  refine ⟨ha, by simp [hxs], ?_⟩
  rw [h.prev_eq (p := pre ++ [a]) (q := post') (by simp [hxs]), getLast?_concat]

/-- What the prev link of a member points at is a member, whose next link points back. -/
theorem of_prev (hba : l.prev b = some a) : a ∈ xs ∧ b ∈ xs ∧ l.next a = some b := by
  have hb : b ∈ xs := by
    by_contra hout
    rw [h.prev_outside b hout] at hba
    simp at hba
  obtain ⟨pre, post, hxs⟩ := append_of_mem hb
  obtain ⟨pre', rfl⟩ : ∃ pre', pre = pre' ++ [a] := by
    rw [h.prev_eq hxs] at hba
    exact getLast?_eq_some_iff.mp hba
  refine ⟨by simp [hxs], hb, ?_⟩
  rw [h.next_eq (p := pre') (q := b :: post) (by simp [hxs]), head?_cons]

/-- Next and prev are inverse. -/
theorem inverse : l.next a = some b ↔ l.prev b = some a :=
  ⟨fun hab => (h.of_next hab).2.2, fun hba => (h.of_prev hba).2.2⟩

/-- No node is its own neighbour. -/
theorem next_ne_self (a : α) : l.next a ≠ some a := by
  intro hself
  obtain ⟨hmem, -, hprev⟩ := h.of_next hself
  obtain ⟨pre, post, rfl⟩ := append_of_mem hmem
  have hlast : a ∈ pre := mem_of_getLast? (by rw [← h.prev_eq rfl, hprev])
  exact (nodup_cons.mp (nodup_middle.mp h.nodup)).1 (mem_append_left post hlast)

/-- Only the first node of the list is behind the first pointer. -/
theorem first_ne_of_prev (hba : l.prev b = some a) : first ≠ some b := by
  intro hfirst
  obtain ⟨ys, rfl⟩ := head?_eq_some_iff.mp (h.first_eq.symm.trans hfirst)
  rw [h.prev_eq (p := []) rfl] at hba
  simp at hba

theorem first_mem (ha : first = some a) : a ∈ xs := by
  rw [h.first_eq] at ha
  exact mem_of_mem_head? ha

/-- The membership test: no links, and not the first node. -/
theorem not_mem_iff : a ∉ xs ↔ l.next a = none ∧ l.prev a = none ∧ first ≠ some a := by
  constructor
  · intro ha
    exact ⟨h.next_outside a ha, h.prev_outside a ha, fun hfirst => ha (h.first_mem hfirst)⟩
  · rintro ⟨-, hprev, hfirst⟩ ha
    obtain ⟨pre, post, rfl⟩ := append_of_mem ha
    -- a member without a prev link starts the list
    rw [h.prev_eq rfl, getLast?_eq_none_iff] at hprev
    apply hfirst
    rw [h.first_eq, hprev]
    rfl

end

/-- The first node has no prev link. -/
theorem prev_first (h : l.IsList first (a :: xs)) : l.prev a = none :=
  h.prev_eq (p := []) rfl

end IsList

variable {first v : Option α}

/-- Following the next links, one passes the members and arrives at null. -/
theorem IsList.path {l : Links α} {xs : List α} (h : l.IsList first xs) :
    Path l.next first xs none := by
  -- from a member on, one passes the rest of the list
  have hsuffix (ys : List α) : ∀ pre, xs = pre ++ ys → Path l.next ys.head? ys none := by
    induction ys with
    | nil => exact fun _ _ => rfl
    | cons a as ih =>
      intro pre hxs
      refine ⟨rfl, ?_⟩
      rw [h.next_eq hxs]
      exact ih (pre ++ [a]) (by simp [hxs])
  rw [h.first_eq]
  exact hsuffix xs [] rfl

variable [DecidableEq α]

/-! ### Updates -/

def setNext (l : Links α) (a : α) (v : Option α) : Links α :=
  { l with next := Function.update l.next a v }

def setPrev (l : Links α) (a : α) (v : Option α) : Links α :=
  { l with prev := Function.update l.prev a v }

/-- Store into the next field of the node behind a pointer, if there is one. -/
def setNextAt (l : Links α) (p v : Option α) : Links α :=
  match p with
  | none => l
  | some a => l.setNext a v

/-- Store into the prev field of the node behind a pointer, if there is one. -/
def setPrevAt (l : Links α) (p v : Option α) : Links α :=
  match p with
  | none => l
  | some a => l.setPrev a v

section

variable (l : Links α)

include l

@[simp] theorem setNext_next (a b : α) (v : Option α) :
    (l.setNext a v).next b = if b = a then v else l.next b := update_apply ..

@[simp] theorem setNext_prev (a : α) (v : Option α) : (l.setNext a v).prev = l.prev := rfl

@[simp] theorem setPrev_prev (a b : α) (v : Option α) :
    (l.setPrev a v).prev b = if b = a then v else l.prev b := update_apply ..

@[simp] theorem setPrev_next (a : α) (v : Option α) : (l.setPrev a v).next = l.next := rfl

omit l in
/-- Storing the value a field already has changes nothing. -/
theorem setNext_eq_self {l : Links α} {a : α} (h : l.next a = v) : l.setNext a v = l := by
  rw [setNext, ← h, update_eq_self]

omit l in
theorem setPrev_eq_self {l : Links α} {a : α} (h : l.prev a = v) : l.setPrev a v = l := by
  rw [setPrev, ← h, update_eq_self]

@[simp] theorem setNextAt_next (p v : Option α) (b : α) :
    (l.setNextAt p v).next b = if p = some b then v else l.next b := by
  cases p with
  | none => simp [setNextAt]
  | some a => simp [setNextAt, eq_comm]

@[simp] theorem setNextAt_prev (p v : Option α) : (l.setNextAt p v).prev = l.prev := by
  cases p <;> rfl

@[simp] theorem setPrevAt_prev (p v : Option α) (b : α) :
    (l.setPrevAt p v).prev b = if p = some b then v else l.prev b := by
  cases p with
  | none => simp [setPrevAt]
  | some a => simp [setPrevAt, eq_comm]

@[simp] theorem setPrevAt_next (p v : Option α) : (l.setPrevAt p v).next = l.next := by
  cases p <;> rfl

end

def pushFirst (l : Links α) (first : Option α) (a : α) : Links α :=
  (l.setNext a first).setPrevAt first (some a)

def popFirst (l : Links α) (a : α) : Links α :=
  (l.setNext a none).setPrevAt (l.next a) none

/-- Take out a node: its neighbours are joined and its own links cleared. -/
def unlink (l : Links α) (a : α) : Links α :=
  (((l.setPrevAt (l.next a) (l.prev a)).setNextAt (l.prev a) (l.next a)).setPrev a none).setNext
    a none

/-- The first pointer after taking out a node. -/
def unlinkFirst (l : Links α) (first : Option α) (a : α) : Option α :=
  if first = some a then l.next a else first

/-! ### What the updates do -/

namespace IsList

variable {l : Links α} {first : Option α} {xs : List α} {a b : α}

/-- Pushing a node that is not on the list. -/
theorem push (h : l.IsList first xs) (ha : a ∉ xs) :
    (l.pushFirst first a).IsList (some a) (a :: xs) := by
  have hout : first ≠ some a := fun hfirst => ha (h.first_mem hfirst)
  constructor
  case first_eq => rfl
  case nodup => exact nodup_cons.mpr ⟨ha, h.nodup⟩
  case next_eq =>
    intro pre b post hb
    rcases cons_eq_append_iff.mp hb with ⟨-, hcons⟩ | ⟨pre', -, hxs⟩
    · obtain ⟨rfl, rfl⟩ := cons.inj hcons
      simp [pushFirst, h.first_eq]
    · have hne : b ≠ a := fun hba => ha (by simp [hxs, hba])
      simp [pushFirst, hne, h.next_eq hxs]
  case prev_eq =>
    intro pre b post hb
    rcases cons_eq_append_iff.mp hb with ⟨rfl, hcons⟩ | ⟨pre', rfl, hxs⟩
    · obtain ⟨rfl, rfl⟩ := cons.inj hcons
      simp [pushFirst, hout, h.prev_outside _ ha]
    -- only the old first node gets a new prev link
    have hiff : first = some b ↔ pre' = [] := by
      rw [h.first_eq, hxs]
      cases pre' with
      | nil => simp
      | cons c cs =>
        have hnodup := h.nodup
        simp only [hxs, cons_append, nodup_cons, mem_append, mem_cons, not_or] at hnodup
        simpa using hnodup.1.2.1
    by_cases hpre : pre' = []
    · simp [pushFirst, hiff.mpr hpre, hpre]
    · have hfirst : first ≠ some b := fun hb => hpre (hiff.mp hb)
      simp [pushFirst, hfirst, h.prev_eq hxs, getLast?_cons_of_ne_nil hpre]
  case next_outside =>
    intro b hb
    rw [mem_cons, not_or] at hb
    simp [pushFirst, hb.1, h.next_outside b hb.2]
  case prev_outside =>
    intro b hb
    rw [mem_cons, not_or] at hb
    have hfirst : first ≠ some b := fun hb' => hb.2 (h.first_mem hb')
    simp [pushFirst, hfirst, h.prev_outside b hb.2]

/-- After taking out `a`, a link that pointed at `a` points at what follows `a`. -/
theorem unlink_next (h : l.IsList first xs) (hba : b ≠ a) :
    (l.unlink a).next b = if l.next b = some a then l.next a else l.next b := by
  simp [Links.unlink, hba, h.inverse]

theorem unlink_prev (h : l.IsList first xs) (hba : b ≠ a) :
    (l.unlink a).prev b = if l.prev b = some a then l.prev a else l.prev b := by
  simp [Links.unlink, hba, ← h.inverse]

/-- Taking out a member. -/
theorem unlink_of_mem {pre post : List α} (h : l.IsList first (pre ++ a :: post)) :
    (l.unlink a).IsList (l.unlinkFirst first a) (pre ++ post) := by
  have hnodup := nodup_middle.mp h.nodup
  obtain ⟨hout, hrest⟩ := nodup_cons.mp hnodup
  have hne {b : α} (hb : b ∈ pre ++ post) : b ≠ a := fun hba => hout (hba ▸ hb)
  constructor
  case first_eq =>
    rw [unlinkFirst, h.first_eq, h.next_eq rfl]
    cases pre with
    | nil => simp
    | cons c cs =>
      have hca : c ≠ a := hne (by simp)
      simp [hca]
  case nodup => exact hrest
  case next_eq =>
    intro p b q hb
    rw [unlink_next h (hne (by simp [hb])), h.next_eq (p := pre) rfl]
    -- `b` is in `post` or in `pre`; in the second case `a` may be its next node
    rcases append_eq_append_iff.mp hb with ⟨as, rfl, rfl⟩ | ⟨bs, rfl, hq⟩
    · rw [h.next_eq (p := pre ++ a :: as) (q := q) (by simp)]
      have hqa : q.head? ≠ some a := fun hq => hne (by simp [mem_of_mem_head? hq]) rfl
      rw [if_neg hqa]
    cases bs with
    | nil =>
      obtain rfl : b :: q = post := by simpa using hq
      rw [h.next_eq (p := p ++ [a]) (q := q) (by simp)]
      have hqa : q.head? ≠ some a := fun hq => hne (by simp [mem_of_mem_head? hq]) rfl
      rw [if_neg hqa]
    | cons c cs =>
      obtain ⟨rfl, rfl⟩ := cons.inj hq
      rw [h.next_eq (p := p) (q := cs ++ a :: post) (by simp)]
      cases cs with
      | nil => simp
      | cons c cs =>
        have hca : c ≠ a := hne (by simp)
        simp [hca]
  case prev_eq =>
    intro p b q hb
    rw [unlink_prev h (hne (by simp [hb])), h.prev_eq (p := pre) rfl]
    rcases append_eq_append_iff.mp hb with ⟨as, rfl, rfl⟩ | ⟨bs, rfl, hq⟩
    · rw [h.prev_eq (p := pre ++ a :: as) (q := q) (by simp)]
      rcases eq_nil_or_concat as with rfl | ⟨cs, c, rfl⟩
      · simp
      · have hca : c ≠ a := hne (by simp)
        rw [concat_eq_append, ← cons_append, ← append_assoc, ← append_assoc,
          getLast?_concat, getLast?_concat, if_neg (by simpa using hca)]
    · cases bs with
      | nil =>
        obtain rfl : b :: q = post := by simpa using hq
        rw [h.prev_eq (p := p ++ [a]) (q := q) (by simp), getLast?_concat, if_pos rfl, append_nil]
      | cons c cs =>
        obtain ⟨rfl, rfl⟩ := cons.inj hq
        rw [h.prev_eq (p := p) (q := cs ++ a :: post) (by simp)]
        have hpa : p.getLast? ≠ some a := fun hp => hne (by simp [mem_of_getLast? hp]) rfl
        rw [if_neg hpa]
  case next_outside =>
    intro b hb
    by_cases hba : b = a
    · simp [Links.unlink, hba]
    · have hbx : b ∉ pre ++ a :: post := by simpa [hba] using hb
      rw [unlink_next h hba, h.next_outside b hbx, if_neg (by simp)]
  case prev_outside =>
    intro b hb
    by_cases hba : b = a
    · simp [Links.unlink, hba]
    · have hbx : b ∉ pre ++ a :: post := by simpa [hba] using hb
      rw [unlink_prev h hba, h.prev_outside b hbx, if_neg (by simp)]

/-- Taking out any node, on the list or not. -/
theorem unlink (h : l.IsList first xs) (a : α) :
    (l.unlink a).IsList (l.unlinkFirst first a) (xs.erase a) := by
  by_cases ha : a ∈ xs
  · obtain ⟨pre, post, rfl⟩ := append_of_mem ha
    have hpre : a ∉ pre := by
      have := (nodup_cons.mp (nodup_middle.mp h.nodup)).1
      simp only [mem_append, not_or] at this
      exact this.1
    rw [erase_append_right _ hpre, erase_cons_head]
    exact h.unlink_of_mem
  · obtain ⟨hnext, hprev, hfirst⟩ := h.not_mem_iff.mp ha
    have hsame : l.unlink a = l := by
      rw [Links.unlink, hnext, hprev]
      exact (congrArg (·.setNext a none) (setPrev_eq_self hprev)).trans (setNext_eq_self hnext)
    rw [hsame, unlinkFirst, if_neg hfirst, erase_of_not_mem ha]
    exact h

/-- Taking out a node without a prev link. -/
theorem unlink_of_prev_none (hprev : l.prev a = none) :
    l.unlink a = (l.setPrevAt (l.next a) none).setNext a none := by
  have hsame : (l.setPrevAt (l.next a) none).setPrev a none = l.setPrevAt (l.next a) none :=
    setPrev_eq_self (by simp [hprev])
  rw [Links.unlink, hprev, setNextAt, hsame]

/-- Taking off the first node is taking it out. -/
theorem popFirst_eq_unlink (hprev : l.prev a = none) : l.popFirst a = l.unlink a := by
  rw [Links.popFirst, unlink_of_prev_none hprev]
  cases l.next a <;> rfl

/-- Popping the first node. -/
theorem pop (h : l.IsList first (a :: xs)) : (l.popFirst a).IsList (l.next a) xs := by
  have hlist := h.unlink a
  rw [erase_cons_head, unlinkFirst, if_pos (show first = some a from h.first_eq)] at hlist
  rw [popFirst_eq_unlink h.prev_first]
  exact hlist

end IsList

end Links

end CS
