import AndroidEmu.CS.DoublyLinked
import AndroidEmu.CS.Store

/-!
# Pipes and the wanted list

`hw/misc/goldfish_pipe.c` keeps one `HwPipe` per open pipe. A pipe with something to report to the
guest is on the *wanted* list, which is threaded through the pipes themselves. The older version of
the device adds a test for the pipe it has parked.
-/

namespace AndroidEmu.Pipe

open CS Checked Links Option Store

/-! ### Pipes -/

/-- The function table, the device and the mapped address of the command buffer are left out. -/
structure HwPipe where
  wantedNext : Option ℕ := none
  wantedPrev : Option ℕ := none
  id : ℕ := 0
  wanted : UInt8 := 0
  closed : Bool := false
  hostPipe : Option ℕ := none
  commandBufferAddr : UInt64 := 0
  rwParamsMaxCount : ℕ := 0
  next : Option ℕ := none
  channel : UInt64 := 0
  deriving DecidableEq

/-- A pipe without its links on the wanted list. -/
def HwPipe.core (p : HwPipe) : HwPipe :=
  { p with wantedNext := none, wantedPrev := none }

/-- The wanted links of the pipes in memory. -/
def links (s : Store HwPipe) : Links ℕ where
  next r := (s.cell r).bind HwPipe.wantedNext
  prev r := (s.cell r).bind HwPipe.wantedPrev

/-- What is in memory apart from the wanted links. -/
def content (s : Store HwPipe) (r : ℕ) : Option HwPipe :=
  (s.cell r).map HwPipe.core

def setWantedNext (s : Store HwPipe) (r : ℕ) (v : Option ℕ) : Checked (Store HwPipe) :=
  s.modify r fun p => { p with wantedNext := v }

def setWantedPrev (s : Store HwPipe) (r : ℕ) (v : Option ℕ) : Checked (Store HwPipe) :=
  s.modify r fun p => { p with wantedPrev := v }

/-- Store into the prev link of the pipe behind a pointer that may be null. -/
def setWantedPrevAt (s : Store HwPipe) (p v : Option ℕ) : Checked (Store HwPipe) :=
  match p with
  | some r => setWantedPrev s r v
  | none => .ok s

/-! ### The list operations -/

/-- The pipes in memory and `wanted_pipes_first`. -/
structure WantedList where
  pipes : Store HwPipe
  first : Option ℕ

namespace WantedList

/-- `wanted_pipes_pop_first_v2`. -/
def popFirst (w : WantedList) : Checked (WantedList × Option ℕ) :=
  match w.first with
  | none => .ok (w, none)
  | some r => do
    let p ← w.pipes.load r
    check (p.wantedPrev = none)
    let pipes ← setWantedNext w.pipes r none
    let pipes ← setWantedPrevAt pipes p.wantedNext none
    return (⟨pipes, p.wantedNext⟩, some r)

def add (w : WantedList) (r : ℕ) : Checked WantedList := do
  let p ← w.pipes.load r
  if p.wantedNext = none ∧ p.wantedPrev = none ∧ w.first ≠ some r then
    let pipes ← setWantedNext w.pipes r w.first
    let pipes ← setWantedPrevAt pipes w.first (some r)
    return ⟨pipes, some r⟩
  else return w

def remove (w : WantedList) (r : ℕ) : Checked WantedList := do
  let p ← w.pipes.load r
  let pipes ← setWantedPrevAt w.pipes p.wantedNext p.wantedPrev
  -- the pipe is read again: in a broken list it may be its own neighbour
  let p ← pipes.load r
  match p.wantedPrev with
  | some q =>
    let pipes ← setWantedNext pipes q p.wantedNext
    let pipes ← setWantedPrev pipes r none
    let pipes ← setWantedNext pipes r none
    return ⟨pipes, w.first⟩
  | none =>
    let pipes ← setWantedNext pipes r none
    return ⟨pipes, if w.first = some r then p.wantedNext else w.first⟩

/-! ### What the stores do -/

variable {s s' : Store HwPipe} {w : WantedList} {xs : List ℕ} {r q : ℕ} {p : HwPipe}
  {v : Option ℕ}

theorem isSome_cell_of_content (h : content s' = content s) :
    (s'.cell r).isSome = (s.cell r).isSome := by
  have := congrArg isSome (congrFun h r)
  simpa [content] using this

theorem setWantedNext_of (h : (s.cell r).isSome) (v : Option ℕ) :
    ∃ s', setWantedNext s r v = .ok s' ∧ links s' = (links s).setNext r v ∧
      content s' = content s := by
  obtain ⟨p, hp⟩ := isSome_iff_exists.mp h
  refine ⟨_, modify_of hp _, ?_, ?_⟩
  · simp only [links, setNext, Links.mk.injEq]
    constructor <;> funext q <;> by_cases hq : q = r <;> simp [put_cell, hq, hp]
  · funext q
    by_cases hq : q = r <;> simp [content, put_cell, hq, hp, HwPipe.core]

theorem setWantedPrev_of (h : (s.cell r).isSome) (v : Option ℕ) :
    ∃ s', setWantedPrev s r v = .ok s' ∧ links s' = (links s).setPrev r v ∧
      content s' = content s := by
  obtain ⟨p, hp⟩ := isSome_iff_exists.mp h
  refine ⟨_, modify_of hp _, ?_, ?_⟩
  · simp only [links, setPrev, Links.mk.injEq]
    constructor <;> funext q <;> by_cases hq : q = r <;> simp [put_cell, hq, hp]
  · funext q
    by_cases hq : q = r <;> simp [content, put_cell, hq, hp, HwPipe.core]

theorem setWantedPrevAt_of (h : ∀ q, v = some q → (s.cell q).isSome) (u : Option ℕ) :
    ∃ s', setWantedPrevAt s v u = .ok s' ∧ links s' = (links s).setPrevAt v u ∧
      content s' = content s := by
  cases v with
  | none => exact ⟨s, rfl, rfl, rfl⟩
  | some q => exact setWantedPrev_of (h q rfl) u

theorem links_next_of (h : s.cell r = some p) : (links s).next r = p.wantedNext := by
  simp [links, h]

theorem links_prev_of (h : s.cell r = some p) : (links s).prev r = p.wantedPrev := by
  simp [links, h]

/-! ### Well-formed lists -/

/-- The wanted list holds these pipes, in this order, and all of them are in memory. -/
structure Holds (w : WantedList) (xs : List ℕ) : Prop where
  isList : (links w.pipes).IsList w.first xs
  live : ∀ r ∈ xs, (w.pipes.cell r).isSome

/-- The operations change links only. -/
def SameContent (w w' : WantedList) : Prop := content w'.pipes = content w.pipes

namespace Holds

theorem mk_of_content {w' : WantedList} {ys : List ℕ} (h : w.Holds xs)
    (hlist : (links w'.pipes).IsList w'.first ys) (hys : ∀ q ∈ ys, q ∈ xs ∨ q = r)
    (hr : (w.pipes.cell r).isSome) (hsame : w.SameContent w') : w'.Holds ys where
  isList := hlist
  live q hq := by
    rw [isSome_cell_of_content hsame]
    rcases hys q hq with hq | rfl
    · exact h.live q hq
    · exact hr

theorem put (h : w.Holds xs) {v : Option HwPipe}
    (hnext : v.bind HwPipe.wantedNext = (links w.pipes).next r)
    (hprev : v.bind HwPipe.wantedPrev = (links w.pipes).prev r) (hv : r ∈ xs → v.isSome) :
    Holds ⟨w.pipes.put r v, w.first⟩ xs where
  isList := by
    have hlinks : links (w.pipes.put r v) = links w.pipes := by
      simp only [links, Links.mk.injEq]
      constructor <;> funext q <;> rw [put_cell] <;> split_ifs with hq
      · rw [hq]; exact hnext
      · rfl
      · rw [hq]; exact hprev
      · rfl
    rw [hlinks]
    exact h.isList
  live q hq := by
    rw [put_cell]
    split_ifs with hqr
    · exact hv (hqr ▸ hq)
    · exact h.live q hq

theorem alloc (h : w.Holds xs) (hr : w.pipes.cell r = none) (hnext : p.wantedNext = none)
    (hprev : p.wantedPrev = none) : Holds ⟨w.pipes.put r (some p), w.first⟩ xs :=
  h.put (by simp [links, hr, hnext]) (by simp [links, hr, hprev]) (by simp)

theorem free (h : w.Holds xs) (hr : r ∉ xs) : Holds ⟨w.pipes.put r none, w.first⟩ xs :=
  h.put (h.isList.next_outside r hr).symm (h.isList.prev_outside r hr).symm
    fun hmem => absurd hmem hr

theorem modify (h : w.Holds xs) (hp : w.pipes.cell r = some p) {p' : HwPipe}
    (hnext : p'.wantedNext = p.wantedNext) (hprev : p'.wantedPrev = p.wantedPrev) :
    Holds ⟨w.pipes.put r (some p'), w.first⟩ xs :=
  h.put (by simp [links, hp, hnext]) (by simp [links, hp, hprev]) (by simp)

theorem empty (hnone : ∀ r, content w.pipes r = none) (hfirst : w.first = none) : w.Holds [] where
  isList := by
    have hcell : ∀ r, w.pipes.cell r = none := fun r => by simpa [content] using hnone r
    rw [hfirst]
    exact IsList.empty (fun r => by simp [links, hcell]) fun r => by simp [links, hcell]
  live r hr := by simp at hr

theorem popFirst_nil (h : w.Holds []) : w.popFirst = .ok (w, none) := by
  have hfirst : w.first = none := h.isList.first_eq
  rw [WantedList.popFirst, hfirst]

theorem popFirst (h : w.Holds (r :: xs)) :
    ∃ w', w.popFirst = .ok (w', some r) ∧ w'.Holds xs ∧ w.SameContent w' := by
  have hfirst : w.first = some r := h.isList.first_eq
  have hr := h.live r (by simp)
  obtain ⟨p, hp⟩ := isSome_iff_exists.mp hr
  have hprev : p.wantedPrev = none := by rw [← links_prev_of hp, h.isList.prev_first]
  obtain ⟨s1, hs1, hlinks1, hcontent1⟩ := setWantedNext_of hr none
  have hnext : ∀ q, p.wantedNext = some q → (s1.cell q).isSome := by
    intro q hq
    rw [isSome_cell_of_content hcontent1]
    exact h.live q (h.isList.of_next ((links_next_of hp).trans hq)).2.1
  obtain ⟨s2, hs2, hlinks2, hcontent2⟩ := setWantedPrevAt_of hnext none
  have hsame : content s2 = content w.pipes := hcontent2.trans hcontent1
  have hlist : (links s2).IsList p.wantedNext xs := by
    rw [hlinks2, hlinks1, ← links_next_of hp]
    exact h.isList.pop
  refine ⟨⟨s2, p.wantedNext⟩, ?_, ?_, hsame⟩
  · simp only [WantedList.popFirst, hfirst, load_of hp, ok_bind, check_of hprev, hs1,
      hs2, pure_eq_ok]
  · exact h.mk_of_content hlist (fun q hq => Or.inl (List.mem_cons_of_mem r hq)) hr hsame

theorem add (h : w.Holds xs) (hr : (w.pipes.cell r).isSome) :
    ∃ w', w.add r = .ok w' ∧ w'.Holds (xs.insert r) ∧ w.SameContent w' := by
  obtain ⟨p, hp⟩ := isSome_iff_exists.mp hr
  have htest : (p.wantedNext = none ∧ p.wantedPrev = none ∧ w.first ≠ some r) ↔ r ∉ xs := by
    rw [h.isList.not_mem_iff, links_next_of hp, links_prev_of hp]
  rw [WantedList.add, load_of hp, ok_bind]
  by_cases hmem : r ∈ xs
  · rw [if_neg (fun ht => htest.mp ht hmem), List.insert_of_mem hmem]
    exact ⟨w, rfl, h, rfl⟩
  rw [if_pos (htest.mpr hmem), List.insert_of_not_mem hmem]
  obtain ⟨s1, hs1, hlinks1, hcontent1⟩ := setWantedNext_of hr w.first
  have hfirst : ∀ q, w.first = some q → (s1.cell q).isSome := by
    intro q hq
    rw [isSome_cell_of_content hcontent1]
    exact h.live q (h.isList.first_mem hq)
  obtain ⟨s2, hs2, hlinks2, hcontent2⟩ := setWantedPrevAt_of hfirst (some r)
  have hsame : content s2 = content w.pipes := hcontent2.trans hcontent1
  have hlist : (links s2).IsList (some r) (r :: xs) := by
    rw [hlinks2, hlinks1]
    exact h.isList.push hmem
  refine ⟨⟨s2, some r⟩, by rw [hs1, ok_bind, hs2]; rfl, ?_, hsame⟩
  refine h.mk_of_content (r := r) hlist (fun q hq => ?_) hr hsame
  exact (List.mem_cons.mp hq).symm

theorem remove (h : w.Holds xs) (hr : (w.pipes.cell r).isSome) :
    ∃ w', w.remove r = .ok w' ∧ w'.Holds (xs.erase r) ∧ w.SameContent w' := by
  obtain ⟨p, hp⟩ := isSome_iff_exists.mp hr
  have hnext : ∀ q, p.wantedNext = some q → (w.pipes.cell q).isSome := fun q hq =>
    h.live q (h.isList.of_next ((links_next_of hp).trans hq)).2.1
  obtain ⟨s1, hs1, hlinks1, hcontent1⟩ := setWantedPrevAt_of hnext p.wantedPrev
  obtain ⟨p1, hp1⟩ := isSome_iff_exists.mp ((isSome_cell_of_content hcontent1).trans hr)
  -- no pipe of a well-formed list is its own neighbour, so its links are still the same
  have hself : p.wantedNext ≠ some r := by
    rw [← links_next_of hp]
    exact h.isList.next_ne_self r
  have hnext1 : p1.wantedNext = p.wantedNext := by
    rw [← links_next_of hp1, hlinks1, setPrevAt_next, links_next_of hp]
  have hprev1 : p1.wantedPrev = p.wantedPrev := by
    rw [← links_prev_of hp1, hlinks1, setPrevAt_prev, if_neg hself, links_prev_of hp]
  have hlist := h.isList.unlink r
  rw [WantedList.remove, load_of hp, ok_bind, hs1, ok_bind, load_of hp1, ok_bind, hnext1, hprev1]
  have hmem : ∀ q ∈ xs.erase r, q ∈ xs ∨ q = r := fun q hq => Or.inl (List.mem_of_mem_erase hq)
  have hr1 : (s1.cell r).isSome := (isSome_cell_of_content hcontent1).trans hr
  cases hq : p.wantedPrev with
  | none =>
    obtain ⟨s2, hs2, hlinks2, hcontent2⟩ := setWantedNext_of hr1 none
    have hsame : content s2 = content w.pipes := hcontent2.trans hcontent1
    refine ⟨⟨s2, _⟩, by simp only [hs2]; rfl, h.mk_of_content ?_ hmem hr hsame, hsame⟩
    rw [hq] at hlinks1
    rw [IsList.unlink_of_prev_none ((links_prev_of hp).trans hq), unlinkFirst,
      links_next_of hp] at hlist
    rwa [hlinks2, hlinks1]
  | some q =>
    have hprev : (links w.pipes).prev r = some q := (links_prev_of hp).trans hq
    have hlive : (s1.cell q).isSome :=
      (isSome_cell_of_content hcontent1).trans (h.live q (h.isList.of_prev hprev).1)
    obtain ⟨s2, hs2, hlinks2, hcontent2⟩ := setWantedNext_of hlive p.wantedNext
    obtain ⟨s3, hs3, hlinks3, hcontent3⟩ :=
      setWantedPrev_of ((isSome_cell_of_content hcontent2).trans hr1) none
    obtain ⟨s4, hs4, hlinks4, hcontent4⟩ :=
      setWantedNext_of ((isSome_cell_of_content (hcontent3.trans hcontent2)).trans hr1) none
    have hsame : content s4 = content w.pipes :=
      hcontent4.trans (hcontent3.trans (hcontent2.trans hcontent1))
    refine ⟨⟨s4, w.first⟩, ?_, h.mk_of_content ?_ hmem hr hsame, hsame⟩
    · simp only [hs2, hs3, hs4, ok_bind, pure_eq_ok]
    · rw [unlink, unlinkFirst, if_neg (h.isList.first_ne_of_prev hprev), hprev,
        links_next_of hp] at hlist
      rwa [hlinks4, hlinks3, hlinks2, hlinks1, hq]

end Holds

end WantedList

end AndroidEmu.Pipe
