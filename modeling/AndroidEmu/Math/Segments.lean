import Mathlib.Tactic
import Mathlib.Data.List.Chain

/-!
# Tilings of an interval by segments

A list of segments tiles `[lo, hi)` when each starts where the one before it ends and none is empty.
A tiling is *coalesced* when no two neighbours are *free*; then every range of free points lies
inside a single free segment.
-/

namespace Math.Segments

open List

variable {α : Type*} {start len : α → ℕ} {free : α → Prop}
variable {lo mid hi p n : ℕ} {x y : α} {xs ys : List α}

/-- The segments of the list lie end to end from `lo` to `hi`, none empty. -/
def Tiles (start len : α → ℕ) : ℕ → List α → ℕ → Prop
  | lo, [], hi => lo = hi
  | lo, x :: xs, hi => start x = lo ∧ 0 < len x ∧ Tiles start len (lo + len x) xs hi

/-- The point `p` lies in the segment `x`. -/
def Covers (start len : α → ℕ) (x : α) (p : ℕ) : Prop :=
  start x ≤ p ∧ p < start x + len x

/-- The point `p` lies in a free segment of the list. -/
def Free (start len : α → ℕ) (free : α → Prop) (xs : List α) (p : ℕ) : Prop :=
  ∃ x ∈ xs, free x ∧ Covers start len x p

/-- No two neighbouring segments are free. -/
def Coalesced (free : α → Prop) (xs : List α) : Prop :=
  xs.IsChain fun x y => ¬ (free x ∧ free y)

@[simp] theorem tiles_nil : Tiles start len lo [] hi ↔ lo = hi := Iff.rfl

@[simp] theorem tiles_cons : Tiles start len lo (x :: xs) hi ↔
      start x = lo ∧ 0 < len x ∧ Tiles start len (lo + len x) xs hi := Iff.rfl

theorem tiles_append : Tiles start len lo (xs ++ ys) hi ↔
      ∃ mid, Tiles start len lo xs mid ∧ Tiles start len mid ys hi := by
  induction xs generalizing lo with
  | nil => simp
  | cons x xs ih =>
    simp only [cons_append, tiles_cons, ih]
    constructor
    · rintro ⟨hx, hpos, mid, hxs, hys⟩
      exact ⟨mid, ⟨hx, hpos, hxs⟩, hys⟩
    · rintro ⟨mid, ⟨hx, hpos, hxs⟩, hys⟩
      exact ⟨hx, hpos, mid, hxs, hys⟩

section

variable (h : Tiles start len lo xs hi)

include h

/-- The lengths add up to the length of the interval. -/
theorem Tiles.add_sum_len : lo + (xs.map len).sum = hi := by
  induction xs generalizing lo with
  | nil => simpa using h
  | cons x xs ih =>
    obtain ⟨_, _, hrest⟩ := h
    have := ih hrest
    simp only [map_cons, sum_cons]
    omega

/-- There are not more segments than points. -/
theorem Tiles.length_le : lo + xs.length ≤ hi := by
  induction xs generalizing lo with
  | nil => exact (tiles_nil.mp h).le
  | cons x xs ih =>
    obtain ⟨_, hpos, hrest⟩ := h
    have := ih hrest
    simp only [length_cons]
    omega

theorem Tiles.le : lo ≤ hi := by
  have := h.add_sum_len
  omega

omit h in
/-- Segments may be replaced by others that tile the same interval. -/
theorem Tiles.replace {old new : List α} (h : Tiles start len lo (xs ++ old ++ ys) hi)
    (hnew : ∀ a c, c ≤ hi → Tiles start len a old c → Tiles start len a new c) :
    Tiles start len lo (xs ++ new ++ ys) hi := by
  obtain ⟨c, hleft, hys⟩ := tiles_append.mp h
  obtain ⟨a, hxs, hold⟩ := tiles_append.mp hleft
  exact tiles_append.mpr ⟨c, tiles_append.mpr ⟨a, hxs, hnew a c hys.le hold⟩, hys⟩

/-- Each segment is nonempty and lies inside the interval. -/
theorem Tiles.bounds (hx : x ∈ xs) : lo ≤ start x ∧ 0 < len x ∧ start x + len x ≤ hi := by
  induction xs generalizing lo with
  | nil => simp at hx
  | cons z xs ih =>
    obtain ⟨hz, hpos, hrest⟩ := h
    rcases mem_cons.mp hx with rfl | hx
    · have := hrest.le
      exact ⟨by omega, hpos, by omega⟩
    · obtain ⟨hlo, hlen, hhi⟩ := ih hrest hx
      exact ⟨by omega, hlen, hhi⟩

omit h in
/-- The first segment starts the interval. -/
theorem Tiles.start_head (h : Tiles start len lo (x :: xs) hi) : start x = lo := h.1

/-- Each segment starts where the one before it ends. -/
theorem Tiles.isChain : xs.IsChain fun x y => start y = start x + len x := by
  induction xs generalizing lo with
  | nil => exact .nil
  | cons x xs ih =>
    obtain ⟨hx, _, hrest⟩ := h
    cases xs with
    | nil => exact .singleton x
    | cons y ys =>
      refine .cons_cons ?_ (ih hrest)
      rw [hrest.start_head, hx]

/-- Segments further on lie strictly further on. -/
theorem Tiles.pairwise : xs.Pairwise fun x y => start x + len x ≤ start y := by
  induction xs generalizing lo with
  | nil => exact .nil
  | cons x xs ih =>
    obtain ⟨hx, _, hrest⟩ := h
    refine .cons (fun y hy => ?_) (ih hrest)
    have := (hrest.bounds hy).1
    omega

/-- Every point of the interval lies in a segment. -/
theorem Tiles.exists_covers (hlo : lo ≤ p) (hhi : p < hi) : ∃ x ∈ xs, Covers start len x p := by
  induction xs generalizing lo with
  | nil =>
    obtain rfl := tiles_nil.mp h
    omega
  | cons x xs ih =>
    obtain ⟨hx, _, hrest⟩ := h
    by_cases hp : p < lo + len x
    · exact ⟨x, by simp, by omega, by omega⟩
    · obtain ⟨y, hy, hcover⟩ := ih hrest (by omega)
      exact ⟨y, mem_cons_of_mem x hy, hcover⟩

/-- No point lies in two segments. -/
theorem Tiles.eq_of_covers (hx : x ∈ xs) (hy : y ∈ xs)
    (hpx : Covers start len x p) (hpy : Covers start len y p) : x = y := by
  induction xs generalizing lo with
  | nil => simp at hx
  | cons z xs ih =>
    obtain ⟨hz, _, hrest⟩ := h
    unfold Covers at hpx hpy
    rcases mem_cons.mp hx with rfl | hx' <;> rcases mem_cons.mp hy with rfl | hy'
    · rfl
    · have := (hrest.bounds hy').1
      omega
    · have := (hrest.bounds hx').1
      omega
    · exact ih hrest hx' hy'

/-- A segment is determined by its start. -/
theorem Tiles.eq_of_start (hx : x ∈ xs) (hy : y ∈ xs) (hxy : start x = start y) : x = y := by
  have hlx := (h.bounds hx).2.1
  have hly := (h.bounds hy).2.1
  exact h.eq_of_covers (p := start x) hx hy ⟨le_rfl, by omega⟩ ⟨by omega, by omega⟩

/-- Different segments lie apart. -/
theorem Tiles.apart (hx : x ∈ xs) (hy : y ∈ xs) (hne : x ≠ y) :
    start x + len x ≤ start y ∨ start y + len y ≤ start x := by
  have hlx := (h.bounds hx).2.1
  have hly := (h.bounds hy).2.1
  by_contra hover
  have hq : max (start x) (start y) < start x + len x ∧
      max (start x) (start y) < start y + len y := by omega
  exact hne (h.eq_of_covers hx hy ⟨le_max_left _ _, hq.1⟩ ⟨le_max_right _ _, hq.2⟩)

/-- Inside a tiling, being free is a property of the point's own segment. -/
theorem Tiles.free_iff (hx : x ∈ xs)
    (hp : Covers start len x p) : Free start len free xs p ↔ free x := by
  constructor
  · rintro ⟨y, hy, hfree, hpy⟩
    rwa [h.eq_of_covers hx hy hp hpy]
  · exact fun hfree => ⟨x, hx, hfree, hp⟩

omit h in
theorem free_append : Free start len free (xs ++ ys) p ↔
      Free start len free xs p ∨ Free start len free ys p := by
  simp only [Free, mem_append, or_and_right, exists_or]

/-- In a coalesced tiling every free range lies inside one free segment. -/
theorem Tiles.exists_free_segment (hc : Coalesced free xs)
    (hn : 0 < n) (hfree : ∀ q, p ≤ q → q < p + n → Free start len free xs q) :
    ∃ x ∈ xs, free x ∧ start x ≤ p ∧ p + n ≤ start x + len x := by
  obtain ⟨x, hx, hxfree, hxp⟩ := hfree p le_rfl (by omega)
  refine ⟨x, hx, hxfree, hxp.1, ?_⟩
  by_contra hlong
  -- the point right after `x` is free, so the next segment is a free neighbour
  obtain ⟨y, hy, hyfree, hye⟩ :=
    hfree (start x + len x) (by have := hxp.2; omega) (by omega)
  obtain ⟨pre, post, rfl⟩ := append_of_mem hx
  obtain ⟨mid, _, hmid⟩ := tiles_append.mp h
  obtain ⟨hxmid, _, hpost⟩ := hmid
  cases post with
  | nil =>
    have hend := (h.bounds hy).2.2
    rw [tiles_nil] at hpost
    unfold Covers at hye
    omega
  | cons z post =>
    have hz : Covers start len z (start x + len x) :=
      ⟨by rw [hpost.start_head, hxmid], by have := hpost.2.1; rw [hpost.start_head]; omega⟩
    obtain rfl := h.eq_of_covers hy (by simp) hye hz
    have hlink := (isChain_append.mp hc).2.1
    exact (isChain_cons_cons.mp hlink).1 ⟨hxfree, hyfree⟩

/-- In a coalesced tiling there is a gap between any two free segments. -/
theorem Tiles.pairwise_free (hc : Coalesced free xs) :
    xs.Pairwise fun x y => free x → free y → start x + len x < start y := by
  induction xs generalizing lo with
  | nil => exact .nil
  | cons x xs ih =>
    obtain ⟨hx, _, hrest⟩ := h
    refine .cons (fun y hy hfx hfy => ?_) (ih hrest (isChain_cons.mp hc).2)
    cases xs with
    | nil => simp at hy
    | cons z xs =>
      obtain ⟨hz, hpos, hrest'⟩ := hrest
      rcases mem_cons.mp hy with rfl | hy
      · exact absurd ⟨hfx, hfy⟩ (isChain_cons_cons.mp hc).1
      · have := (hrest'.bounds hy).1
        omega

end

theorem tiles_map {β : Type*} {start len : β → ℕ} (f : α → β) :
    Tiles start len lo (xs.map f) hi ↔ Tiles (start ∘ f) (len ∘ f) lo xs hi := by
  induction xs generalizing lo with
  | nil => simp
  | cons x xs ih => simp [ih]

/-- Joining coalesced lists around a segment whose neighbours are not free. -/
theorem Coalesced.insert (hxs : Coalesced free xs) (hys : Coalesced free ys)
    (hleft : ∀ y ∈ xs.getLast?, ¬ free y) (hright : ∀ y ∈ ys.head?, ¬ free y) :
    Coalesced free (xs ++ x :: ys) := by
  refine isChain_append.mpr ⟨hxs, isChain_cons.mpr ⟨?_, hys⟩, ?_⟩
  · exact fun y hy hfree => hright y hy hfree.2
  · exact fun y hy _ _ hfree => hleft y hy hfree.1

/-- The neighbours of a free segment are not free. -/
theorem Coalesced.around (h : Coalesced free (xs ++ x :: ys)) (hx : free x) :
    Coalesced free xs ∧ Coalesced free ys ∧ (∀ y ∈ xs.getLast?, ¬ free y) ∧
      ∀ y ∈ ys.head?, ¬ free y := by
  obtain ⟨hxs, hrest, hlink⟩ := isChain_append.mp h
  obtain ⟨hnext, hys⟩ := isChain_cons.mp hrest
  exact ⟨hxs, hys, fun y hy hfree => hlink y hy x (by simp) ⟨hfree, hx⟩,
    fun y hy hfree => hnext y hy ⟨hx, hfree⟩⟩

/-- A free segment may be replaced by coalesced ones. -/
theorem Coalesced.replace {new : List α} (h : Coalesced free (xs ++ x :: ys)) (hx : free x)
    (hnew : Coalesced free new) : Coalesced free (xs ++ new ++ ys) := by
  obtain ⟨hxs, hys, hleft, hright⟩ := h.around hx
  refine isChain_append.mpr ⟨isChain_append.mpr ⟨hxs, hnew, ?_⟩, hys, ?_⟩
  · exact fun y hy _ _ hfree => hleft y hy hfree.1
  · exact fun _ _ y hy hfree => hright y hy hfree.2

/-- A coalesced list of free segments has at most one. -/
theorem Coalesced.length_le_one (hc : Coalesced free xs) (hall : ∀ x ∈ xs, free x) :
    xs.length ≤ 1 := by
  match xs with
  | [] => simp
  | [_] => simp
  | x :: y :: _ =>
    exact absurd ⟨hall x (by simp), hall y (by simp)⟩ (isChain_cons_cons.mp hc).1

/-! ### Equal tilings -/

section

variable (h : Tiles start len lo xs hi) (h' : Tiles start len lo ys hi)

include h h'

theorem Tiles.eq_of_subset (hsub : xs ⊆ ys) : xs = ys := by
  induction xs generalizing lo ys with
  | nil =>
    obtain rfl := tiles_nil.mp h
    have := h'.length_le
    exact (length_eq_zero_iff.mp (by omega)).symm
  | cons x xs ih =>
    obtain ⟨y, ys, rfl⟩ := exists_cons_of_ne_nil (ne_nil_of_mem (hsub mem_cons_self))
    obtain rfl : x = y :=
      h'.eq_of_start (hsub mem_cons_self) mem_cons_self (h.start_head.trans h'.start_head.symm)
    obtain ⟨hx, hpos, hrest⟩ := h
    rw [ih hrest h'.2.2]
    intro z hz
    -- later segments start later
    have hne : z ≠ x := by
      rintro rfl
      have := (hrest.bounds hz).1
      omega
    exact (mem_cons.mp (hsub (mem_cons_of_mem x hz))).resolve_left hne

theorem Tiles.free_of_free (hused : ∀ x ∈ ys, ¬ free x → x ∈ xs)
    (hp : Free start len free xs p) : Free start len free ys p := by
  obtain ⟨x, hx, hfree, hxp⟩ := hp
  obtain ⟨hlo, -, hhi⟩ := h.bounds hx
  obtain ⟨y, hy, hyp⟩ := h'.exists_covers (hlo.trans hxp.1) (hxp.2.trans_le hhi)
  refine ⟨y, hy, ?_, hyp⟩
  by_contra hyused
  obtain rfl := h.eq_of_covers hx (hused y hy hyused) hxp hyp
  exact hyused hfree

/-- A coalesced tiling is determined by its segments that are not free. -/
theorem Tiles.ext (hc : Coalesced free xs) (hc' : Coalesced free ys)
    (hused : ∀ x, ¬ free x → (x ∈ xs ↔ x ∈ ys))
    (heq : ∀ x y, free x → free y → start x = start y → len x = len y → x = y) : xs = ys := by
  refine h.eq_of_subset h' fun x hx => ?_
  by_cases hfx : free x
  -- a free segment lies inside one of the other tiling, and this one inside the first again
  · have hpos := (h.bounds hx).2.1
    obtain ⟨y, hy, hfy, hlo, hhi⟩ := h'.exists_free_segment hc' hpos fun q hq hq' =>
      h.free_of_free h' (fun x hx hu => (hused x hu).mpr hx) ⟨x, hx, hfx, hq, hq'⟩
    obtain ⟨z, hz, -, hlo', hhi'⟩ := h.exists_free_segment hc (h'.bounds hy).2.1 fun q hq hq' =>
      h'.free_of_free h (fun x hx hu => (hused x hu).mp hx) ⟨y, hy, hfy, hq, hq'⟩
    obtain rfl : z = x := h.eq_of_covers hz hx ⟨hlo'.trans hlo, by omega⟩ ⟨le_rfl, by omega⟩
    rwa [heq z y hfx hfy (by omega) (by omega)]
  · exact (hused x hfx).mp hx

end

end Math.Segments
