import AndroidEmu.CS.Checked
import Mathlib.Data.List.ReduceOption

/-!
# Monitors

A call runs with the lock held from its first to its last access, except while it waits; then it
starts over with whatever the state has become. A wait ends by a signal or for no reason at all, and
a timed one also by its deadline. The events of a monitor are therefore its critical sections.
-/

namespace CS

variable {ι σ κ ρ : Type}

/-- The calls of a monitor. `serve` is a call with the lock held, `none` if it has to wait; `giveUp`
ends a call whose wait has timed out, `none` if its waits have no deadline. -/
structure Monitor (σ κ ρ : Type) where
  serve : σ → κ → Checked (Option (σ × ρ))
  giveUp : σ → κ → Option (σ × ρ)

namespace Monitor

/-- The state, and for each thread the call it waits in. -/
structure State (ι σ κ : Type) where
  shared : σ
  waiting : ι → Option κ

def State.start (a : σ) : State ι σ κ := ⟨a, fun _ => none⟩

/-- The critical sections: a thread makes a call, finds its wait ended, or its wait timed out. -/
inductive Event (ι κ : Type)
  | call (t : ι) (c : κ)
  | wake (t : ι)
  | timeout (t : ι)
  deriving DecidableEq, Repr

variable [DecidableEq ι] (m : Monitor σ κ ρ)

/-- A thread has the lock and is in the given call. -/
def enter (s : State ι σ κ) (t : ι) (c : κ) : Checked (State ι σ κ × Option (κ × ρ)) := do
  match ← m.serve s.shared c with
  | none => return (⟨s.shared, Function.update s.waiting t (some c)⟩, none)
  | some (a, r) => return (⟨a, Function.update s.waiting t none⟩, some (c, r))

/-- The monitor as a machine, which puts out the calls that are completed. Events that the thread
is in no position to cause do nothing. -/
def step (s : State ι σ κ) : Event ι κ → Checked (State ι σ κ × Option (κ × ρ))
  | .call t c =>
    match s.waiting t with
    | none => m.enter s t c
    | some _ => .ok (s, none)
  | .wake t =>
    match s.waiting t with
    | none => .ok (s, none)
    | some c => m.enter s t c
  | .timeout t =>
    match s.waiting t with
    | none => .ok (s, none)
    | some c =>
      match m.giveUp s.shared c with
      | none => .ok (s, none)
      | some (a, r) => .ok (⟨a, Function.update s.waiting t none⟩, some (c, r))

variable {m} {s s' : State ι σ κ} {o : Option (κ × ρ)}

theorem enter_cases {t : ι} {c : κ} (h : m.enter s t c = .ok (s', o)) :
    (o = none ∧ s'.shared = s.shared) ∨
      ∃ r, o = some (c, r) ∧ m.serve s.shared c = .ok (some (s'.shared, r)) := by
  obtain ⟨p, hp, hrest⟩ := Checked.bind_eq_ok.mp h
  rcases p with _ | ⟨a, r⟩
  · cases hrest
    exact .inl ⟨rfl, rfl⟩
  · cases hrest
    exact .inr ⟨r, rfl, hp⟩

/-- An event leaves the state alone and completes no call, or it completes one. -/
theorem step_cases {e : Event ι κ} (h : m.step s e = .ok (s', o)) :
    (o = none ∧ s'.shared = s.shared) ∨
      ∃ c r, o = some (c, r) ∧ (m.serve s.shared c = .ok (some (s'.shared, r)) ∨
        m.giveUp s.shared c = some (s'.shared, r)) := by
  have hentered : ∀ {t : ι} {c : κ}, m.enter s t c = .ok (s', o) →
      (o = none ∧ s'.shared = s.shared) ∨
        ∃ c r, o = some (c, r) ∧ (m.serve s.shared c = .ok (some (s'.shared, r)) ∨
          m.giveUp s.shared c = some (s'.shared, r)) := by
    intro t c h
    obtain hidle | ⟨r, ho, hserve⟩ := enter_cases h
    · exact .inl hidle
    · exact .inr ⟨c, r, ho, .inl hserve⟩
  cases e with
  | call t c =>
    simp only [step] at h
    split at h
    · exact hentered h
    · cases h
      exact .inl ⟨rfl, rfl⟩
  | wake t =>
    simp only [step] at h
    split at h
    · cases h
      exact .inl ⟨rfl, rfl⟩
    · exact hentered h
  | timeout t =>
    simp only [step] at h
    split at h
    · cases h
      exact .inl ⟨rfl, rfl⟩
    · next c _ =>
      split at h
      · cases h
        exact .inl ⟨rfl, rfl⟩
      · next a r hgive =>
        cases h
        exact .inr ⟨c, r, rfl, .inr hgive⟩

/-- Where the calls return, so do the events. -/
theorem step_isOk (h : ∀ c, (m.serve s.shared c).IsOk) (e : Event ι κ) : (m.step s e).IsOk := by
  have henter : ∀ t c, (m.enter s t c).IsOk := by
    intro t c
    obtain ⟨p, hp⟩ := h c
    unfold enter
    rw [hp]
    rcases p with _ | ⟨a, r⟩
    · exact ⟨_, rfl⟩
    · exact ⟨_, rfl⟩
  cases e with
  | call t c =>
    simp only [step]
    split
    · exact henter t c
    · exact ⟨_, rfl⟩
  | wake t =>
    simp only [step]
    split
    · exact ⟨_, rfl⟩
    · exact henter t _
  | timeout t =>
    simp only [step]
    split
    · exact ⟨_, rfl⟩
    · split
      · exact ⟨_, rfl⟩
      · exact ⟨_, rfl⟩

/-- The rule for interleavings. A property of the completed calls and of the state that each
completed call keeps holds after every run. -/
theorem run_calls {P : List (κ × ρ) → σ → Prop} (hok : ∀ log a c, P log a → (m.serve a c).IsOk)
    (hserve : ∀ log a c b r, P log a → m.serve a c = .ok (some (b, r)) → P (log ++ [(c, r)]) b)
    (hgive : ∀ log a c b r, P log a → m.giveUp a c = some (b, r) → P (log ++ [(c, r)]) b) {a : σ}
    (ha : P [] a) (es : List (Event ι κ)) : ∃ s', (run m.step (State.start a) es).2 = .ok s' ∧
      P (run m.step (State.start a) es).1.reduceOption s'.shared := by
  have hstep : ∀ (is : List (Event ι κ)) (os : List (Option (κ × ρ))) (s : State ι σ κ)
      (e : Event ι κ), P os.reduceOption s.shared → True →
      ∃ s' o, m.step s e = .ok (s', o) ∧ P (os ++ [o]).reduceOption s'.shared := by
    intro _ os s e hP _
    obtain ⟨⟨s', o⟩, hs'⟩ := step_isOk (fun c => hok _ _ c hP) e
    refine ⟨s', o, hs', ?_⟩
    rw [List.reduceOption_append]
    obtain ⟨rfl, hsame⟩ | ⟨c, r, rfl, hdone | hdone⟩ := step_cases hs'
    · rw [hsame]
      simpa using hP
    · exact hserve _ _ _ _ _ hP hdone
    · exact hgive _ _ _ _ _ hP hdone
  have hall : Meets m.step (fun _ _ => True) (State.start a) es :=
    meets_of_forall es _ fun _ _ _ => trivial
  exact run_history (P := fun _ os (s : State ι σ κ) => P os.reduceOption s.shared) hstep es [] []
    ha hall

end Monitor

end CS
