import Mathlib.Tactic

/-!
# Queues of barriers and signals

A queue holds *waits*, each for a numbered job, and *signals*. The part up to the first wait for a
job that is not done is *passed*; the signals in it are *due*.
-/

namespace CS

open List

inductive Entry (κ : Type)
  | wait (job : ℕ)
  | signal (x : κ)
  deriving DecidableEq, Repr

variable {κ : Type} {done done' : ℕ → Bool} {es old pending : List (Entry κ)}

namespace Entry

/-- Nothing holds up the queue at this entry. -/
def passes (done : ℕ → Bool) : Entry κ → Bool
  | .wait job => done job
  | .signal _ => true

def signal? : Entry κ → Option κ
  | .wait _ => none
  | .signal x => some x

end Entry

def signals (es : List (Entry κ)) : List κ := es.filterMap Entry.signal?

theorem signals_append (es es' : List (Entry κ)) :
    signals (es ++ es') = signals es ++ signals es' :=
  filterMap_append

/-- The signals before the first wait for a job that is not done. -/
def due (done : ℕ → Bool) (es : List (Entry κ)) : List κ :=
  signals (es.takeWhile (Entry.passes done))

theorem due_cons_of_passes {e : Entry κ} (h : e.passes done = true) :
    due done (e :: es) = signals [e] ++ due done es := by
  rw [due, takeWhile_cons_of_pos h, due, ← signals_append, singleton_append]

theorem due_cons_of_not_passes {e : Entry κ} (h : e.passes done = false) :
    due done (e :: es) = [] := by
  rw [due, takeWhile_cons_of_neg (by simp [h])]
  rfl

theorem due_append (h : ∀ e ∈ old, e.passes done = true) :
    due done (old ++ pending) = signals old ++ due done pending := by
  rw [due, takeWhile_append_of_pos h, signals_append, due]

/-- The queue starts with a wait for a job that is not done, or is empty. -/
def Blocked (done : ℕ → Bool) (es : List (Entry κ)) : Prop := ∀ e ∈ es.head?, e.passes done = false

theorem due_eq_nil_of_blocked (h : Blocked done es) : due done es = [] := by
  cases es with
  | nil => rfl
  | cons e es => exact due_cons_of_not_passes (h e rfl)

theorem blocked_dropWhile (done : ℕ → Bool) (es : List (Entry κ)) :
    Blocked done (es.dropWhile (Entry.passes done)) := by
  intro e he
  have := head?_dropWhile_not (Entry.passes done) es
  rw [Option.mem_def.mp he] at this
  simpa using this

/-- A blocked queue stays blocked when a wait for a job that is not done joins it. -/
theorem Blocked.append_wait (h : Blocked done es) {job : ℕ} (hjob : done job = false) :
    Blocked done (es ++ [.wait job]) := by
  cases es with
  | nil =>
    intro e he
    obtain rfl : Entry.wait job = e := by simpa using he
    exact hjob
  | cons e es => exact h

/-- A queue is blocked by the jobs it waits for. -/
theorem Blocked.congr (h : Blocked done es) (hdone : ∀ k, Entry.wait k ∈ es → done k = done' k) :
    Blocked done' es := by
  intro e he
  have hpass := h e he
  cases e with
  | wait k => exact (hdone k (mem_of_mem_head? he)).symm.trans hpass
  | signal x => exact hpass

/-! ### A queue over time -/

/-- Of all entries so far, those before the `pending` ones are passed, and their signals are the
ones given. -/
def Given (done : ℕ → Bool) (entries pending : List (Entry κ)) (given : List κ) : Prop :=
  ∃ old, entries = old ++ pending ∧ (∀ e ∈ old, e.passes done = true) ∧ given = signals old

namespace Given

variable {entries : List (Entry κ)} {given : List κ}

section

variable (h : Given done entries pending given)

include h

/-- The signals given are the first of those that are due. -/
theorem isPrefix : given <+: due done entries := by
  obtain ⟨old, rfl, hold, rfl⟩ := h
  rw [due_append hold]
  exact prefix_append _ _

/-- Once the queue is blocked, all that are due are given. -/
theorem eq_due (hblocked : Blocked done pending) : given = due done entries := by
  obtain ⟨old, rfl, hold, rfl⟩ := h
  rw [due_append hold, due_eq_nil_of_blocked hblocked, append_nil]

/-- The signals are given or pending. -/
theorem signals_eq : signals entries = given ++ signals pending := by
  obtain ⟨old, rfl, -, rfl⟩ := h
  exact signals_append _ _

/-- A wait for a job that is not done is pending. -/
theorem mem_pending {job : ℕ} (hjob : done job = false)
    (hmem : .wait job ∈ entries) : .wait job ∈ pending := by
  obtain ⟨old, rfl, hold, -⟩ := h
  refine (mem_append.mp hmem).resolve_left fun hmem => ?_
  exact Bool.false_ne_true (hjob.symm.trans (hold _ hmem))

/-- More jobs get done. -/
theorem mono (hdone : ∀ k, done k = true → done' k = true) : Given done' entries pending given := by
  obtain ⟨old, hentries, hold, hgiven⟩ := h
  refine ⟨old, hentries, fun e he => ?_, hgiven⟩
  have hpass := hold e he
  cases e with
  | wait k => exact hdone k hpass
  | signal x => rfl

/-- Entries join the queue. -/
theorem append (es : List (Entry κ)) : Given done (entries ++ es) (pending ++ es) given := by
  obtain ⟨old, rfl, hold, hgiven⟩ := h
  exact ⟨old, append_assoc _ _ _, hold, hgiven⟩

/-- The signals that are due are given. -/
theorem poll :
    Given done entries (pending.dropWhile (Entry.passes done)) (given ++ due done pending) := by
  obtain ⟨old, rfl, hold, rfl⟩ := h
  refine ⟨old ++ pending.takeWhile (Entry.passes done), ?_, ?_, (signals_append _ _).symm⟩
  · rw [append_assoc, takeWhile_append_dropWhile]
  · intro e he
    rcases mem_append.mp he with he | he
    · exact hold e he
    · exact List.all_eq_true.mp all_takeWhile e he

end

end Given

end CS
