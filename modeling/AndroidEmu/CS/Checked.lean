import Mathlib.Tactic

/-!
# Checked execution

A *checked* computation either returns a value or names the fault that stopped it. A machine is a
step function from a state and an input to a checked pair of a new state and an output.
-/

namespace CS

open List Except

/-- The ways a run of C code leaves the behaviour defined by its source, and `exit`. Accesses
outside an array of objects are `outOfBounds`, those outside a mapped page or a local buffer
`bufferOverrun`. A signed loop counter that passes its range is an `overflow`, the use of an object
that was never set `uninitialized`. -/
inductive Fault
  | assertion
  | outOfMemory
  | outOfBounds
  | bufferOverrun
  | useAfterFree
  | nullPointer
  | divideByZero
  | endless
  | overflow
  | uninitialized
  | exit
  deriving DecidableEq, Repr

/-- A computation that returns a value or stops with a fault. -/
abbrev Checked (α : Type*) := Except Fault α

variable {α β : Type}

section Except

variable {ε : Type}

@[simp] theorem Checked.ok_bind (a : α) (f : α → Except ε β) :
    (ok a : Except ε α) >>= f = f a := rfl

@[simp] theorem Checked.error_bind (e : ε) (f : α → Except ε β) :
    (error e : Except ε α) >>= f = .error e := rfl

@[simp] theorem Checked.pure_eq_ok (a : α) : (pure a : Except ε α) = .ok a := rfl

variable {f g : α → Except ε β} {x : Except ε α}

/-- A bind that returns has a first part that returns. -/
theorem Checked.bind_eq_ok {b : β} : x >>= f = .ok b ↔ ∃ a, x = .ok a ∧ f a = .ok b := by
  cases x with
  | error e => simp
  | ok a => simp

theorem Checked.map_eq_ok {f : α → β} {b : β} : x.map f = .ok b ↔ ∃ a, x = .ok a ∧ f a = b := by
  cases x with
  | error e => simp [Except.map]
  | ok a => simp [Except.map]

theorem Checked.pair_inj {a a' : α} {b b' : β}
    (h : (.ok (a, b) : Except ε (α × β)) = .ok (a', b')) : a = a' ∧ b = b' :=
  Prod.mk.inj (ok.inj h)

theorem Checked.bind_congr (h : ∀ a, x = .ok a → f a = g a) : x >>= f = x >>= g := by
  cases x with
  | error e => rfl
  | ok a => exact h a rfl

/-- The rule for loops that end early by a fault: what each turn does, under a condition that
the turns keep, the loop does. -/
theorem Checked.foldlM_rel {R : α → α → Prop} {Inv : α → Prop} (hrefl : ∀ a, R a a)
    (htrans : ∀ a b c, R a b → R b c → R a c) (hinv : ∀ a b, R a b → Inv a → Inv b)
    {f : α → β → Except ε α} (hf : ∀ a x b, Inv a → f a x = .ok b → R a b) (xs : List β) {a b : α}
    (ha : Inv a) (h : xs.foldlM f a = .ok b) : R a b := by
  induction xs generalizing a with
  | nil =>
    obtain rfl : a = b := ok.inj h
    exact hrefl a
  | cons x xs ih =>
    obtain ⟨c, hc, hrest⟩ := Checked.bind_eq_ok.mp h
    have hac := hf a x c ha hc
    exact htrans a c b hac (ih (hinv a c hac ha) hrest)

/-- A loop that collects what its turns return. -/
theorem Checked.mapM_eq_ok {g : α → β} (xs : List α)
    (h : ∀ x ∈ xs, f x = .ok (g x)) : xs.mapM f = .ok (xs.map g) := by
  induction xs with
  | nil => rfl
  | cons x xs ih =>
    rw [mapM_cons, h x mem_cons_self, Checked.ok_bind, ih fun y hy => h y (mem_cons_of_mem x hy)]
    rfl

end Except

/-- An assertion of the source. -/
def check (c : Prop) [Decidable c] : Checked Unit :=
  if c then .ok () else .error .assertion

@[simp] theorem check_of {c : Prop} [Decidable c] (h : c) : check c = .ok () := if_pos h

theorem check_of_not {c : Prop} [Decidable c] (h : ¬ c) : check c = .error .assertion := if_neg h

@[simp] theorem check_eq_ok {c : Prop} [Decidable c] {u : Unit} : check c = .ok u ↔ c := by
  by_cases h : c
  · simp [h]
  · rw [check_of_not h]
    simp [h]

def Checked.IsOk (x : Checked α) : Prop := ∃ a, x = .ok a

@[simp] theorem Checked.isOk_ok (a : α) : Checked.IsOk (.ok a) := ⟨a, rfl⟩

@[simp] theorem Checked.not_isOk_error (f : Fault) : ¬ Checked.IsOk (.error f : Checked α) := by
  rintro ⟨a, ha⟩
  cases ha

variable {f : α → Checked β}

theorem Checked.isOk_bind_iff {x : Checked α} : (x >>= f).IsOk ↔ ∃ a, x = .ok a ∧ (f a).IsOk := by
  cases x with
  | error e => simp
  | ok a => simp

theorem Checked.IsOk.bind {x : Checked α} (h : x.IsOk)
    (hf : ∀ a, x = .ok a → (f a).IsOk) : (x >>= f).IsOk := by
  obtain ⟨a, ha⟩ := h
  exact Checked.isOk_bind_iff.mpr ⟨a, ha, hf a ha⟩

/-- A loop returns when each turn does, under a condition that the turns keep. -/
theorem Checked.isOk_foldlM (Inv : α → Prop) {f : α → β → Checked α}
    (hf : ∀ a x, Inv a → ∃ b, f a x = .ok b ∧ Inv b) (xs : List β) {a : α} (ha : Inv a) :
    (xs.foldlM f a).IsOk := by
  induction xs generalizing a with
  | nil => exact ⟨a, rfl⟩
  | cons x xs ih =>
    obtain ⟨b, hb, hinv⟩ := hf a x ha
    rw [foldlM_cons, hb]
    exact ih hinv

/-- The value returned satisfies `post`, or the fault is an allowed one. -/
def Checked.Ensures (post : α → Prop) (allowed : Fault → Prop) : Checked α → Prop
  | .ok a => post a
  | .error f => allowed f

variable {allowed' Allowed : Fault → Prop}

namespace Checked.Ensures

variable {post post' : α → Prop} {allowed : Fault → Prop} {x : Checked α}

instance [DecidablePred post] [DecidablePred allowed] : Decidable (x.Ensures post allowed) :=
  match x with
  | .ok a => inferInstanceAs (Decidable (post a))
  | .error f => inferInstanceAs (Decidable (allowed f))

section

variable (h : x.Ensures post allowed)

include h

theorem of_ok {a : α} (hx : x = .ok a) : post a := by
  rwa [hx] at h

theorem of_error {f : Fault} (hx : x = .error f) : allowed f := by
  rwa [hx] at h

theorem mono (himp : ∀ a, post a → post' a) : x.Ensures post' allowed := by
  cases x with
  | ok a => exact himp a h
  | error f => exact h

theorem imp (hpost : ∀ a, post a → post' a)
    (hallowed : ∀ f, allowed f → allowed' f) : x.Ensures post' allowed' := by
  cases x with
  | ok a => exact hpost a h
  | error f => exact hallowed f h

theorem and (h' : x.Ensures post' allowed') : x.Ensures (fun a => post a ∧ post' a) allowed := by
  cases x with
  | ok a => exact ⟨h, h'⟩
  | error f => exact h

end

theorem bind {post : β → Prop} {pre : α → Prop} (h : x.Ensures pre allowed)
    (hf : ∀ a, x = .ok a → pre a → (f a).Ensures post allowed) :
    (x >>= f).Ensures post allowed := by
  cases x with
  | ok a => exact hf a rfl h
  | error e => exact h

end Checked.Ensures

/-! ### Relating two computations -/

/-- Two computations that both return related values or both stop with the same
fault. -/
inductive Checked.Rel (R : α → β → Prop) : Checked α → Checked β → Prop
  | ok {a : α} {b : β} (h : R a b) : Checked.Rel R (.ok a) (.ok b)
  | error (f : Fault) : Checked.Rel R (.error f) (.error f)

namespace Checked.Rel

variable {γ δ : Type} {R : α → β → Prop} {S : γ → δ → Prop} {x : Checked α} {y : Checked β}

section

variable (h : Checked.Rel R x y)

include h

theorem exists_ok {a : α} (hx : x = .ok a) : ∃ b, y = .ok b ∧ R a b := by
  subst hx
  cases h with
  | ok h => exact ⟨_, rfl, h⟩

theorem eq_error {f : Fault} (hx : x = .error f) : y = .error f := by
  subst hx
  cases h
  rfl

theorem exists_ok_left {b : β} (hy : y = .ok b) : ∃ a, x = .ok a ∧ R a b := by
  subst hy
  cases h with
  | ok h => exact ⟨_, rfl, h⟩

theorem eq_error_left {f : Fault} (hy : y = .error f) : x = .error f := by
  subst hy
  cases h
  rfl

theorem mono {R' : α → β → Prop} (himp : ∀ a b, R a b → R' a b) : Checked.Rel R' x y := by
  cases h with
  | ok h => exact .ok (himp _ _ h)
  | error f => exact .error f

/-- Related computations continued in related ways are related. -/
theorem bind {f : α → Checked γ} {g : β → Checked δ}
    (hfg : ∀ a b, R a b → Checked.Rel S (f a) (g b)) : Checked.Rel S (x >>= f) (y >>= g) := by
  cases h with
  | ok h => exact hfg _ _ h
  | error e => exact .error e

end

/-- The same assertion before related computations. -/
theorem check (c : Prop) [Decidable c] {x : Checked γ} {y : Checked δ} (h : c → Checked.Rel S x y) :
    Checked.Rel S (CS.check c >>= fun _ => x) (CS.check c >>= fun _ => y) := by
  by_cases hc : c
  · rw [check_of hc]
    exact h hc
  · rw [check_of_not hc]
    exact .error _

end Checked.Rel

/-! ### Runs of a machine -/

section Run

variable {σ τ ι ο : Type}

/-- The outputs of a machine on a list of inputs, and the state it ends in or the
fault that stops it. -/
def run (step : σ → ι → Checked (σ × ο)) : σ → List ι → List ο × Checked σ
  | s, [] => ([], .ok s)
  | s, i :: is =>
    match step s i with
    | .error f => ([], .error f)
    | .ok (s', o) => (o :: (run step s' is).1, (run step s' is).2)

variable {step : σ → ι → Checked (σ × ο)}

@[simp] theorem run_nil (s : σ) : run step s [] = ([], .ok s) := rfl

variable {s s' : σ}

theorem run_cons_error {i : ι} {f : Fault} (h : step s i = .error f) (is : List ι) :
    run step s (i :: is) = ([], .error f) := by
  simp only [run, h]

theorem run_cons_ok {i : ι} {o : ο} (h : step s i = .ok (s', o)) (is : List ι) :
    run step s (i :: is) = (o :: (run step s' is).1, (run step s' is).2) := by
  simp only [run, h]

/-- Every step of the run from `s` satisfies `cond` in the state it starts from. -/
def Meets (step : σ → ι → Checked (σ × ο)) (cond : σ → ι → Prop) : σ → List ι → Prop
  | _, [] => True
  | s, i :: is => cond s i ∧ ∀ s' o, step s i = .ok (s', o) → Meets step cond s' is

variable {cond : σ → ι → Prop}

/-- A run whose first step is known. -/
theorem Meets.cons {i : ι} {o : ο} {is : List ι} (hstep : step s i = .ok (s', o)) (hcond : cond s i)
    (hrest : Meets step cond s' is) : Meets step cond s (i :: is) := by
  refine ⟨hcond, fun t o' ht => ?_⟩
  rw [hstep] at ht
  cases ht
  exact hrest

variable {cond cond' : σ → ι → Prop}

instance Meets.instDecidable {cond : σ → ι → Prop} [∀ s i, Decidable (cond s i)] :
    ∀ (s : σ) (is : List ι), Decidable (Meets step cond s is)
  | _, [] => isTrue trivial
  | s, i :: is =>
    match h : step s i with
    | .ok (s', _) =>
      have : Decidable (Meets step cond s' is) := instDecidable s' is
      decidable_of_iff (cond s i ∧ Meets step cond s' is)
        ⟨fun hc => .cons h hc.1 hc.2, fun hm => ⟨hm.1, hm.2 s' _ h⟩⟩
    | .error _ =>
      decidable_of_iff (cond s i)
        ⟨fun hc => ⟨hc, fun _ _ ht => by rw [h] at ht; cases ht⟩, fun hm => hm.1⟩

theorem meets_of_forall : ∀ (is : List ι) (s : σ), (∀ i ∈ is, ∀ s, cond s i) → Meets step cond s is
  | [], _, _ => trivial
  | i :: is, s, h =>
    ⟨h i (by simp) s, fun s' _ _ =>
      meets_of_forall is s' fun j hj => h j (mem_cons_of_mem i hj)⟩

/-- Conditions that say the same of the states with an invariant, which a step under them keeps, are
met by the same runs. -/
theorem meets_congr (Inv : σ → Prop) :
    ∀ (is : List ι) {s : σ}, (∀ s, ∀ i ∈ is, Inv s → (cond s i ↔ cond' s i)) →
      (∀ s, ∀ i ∈ is, ∀ s' o, Inv s → cond s i → step s i = .ok (s', o) → Inv s') → Inv s →
      (Meets step cond s is ↔ Meets step cond' s is) := by
  intro is
  induction is with
  | nil => exact fun _ _ _ => Iff.rfl
  | cons i is ih =>
    intro s hiff hinv hs
    have hrest : ∀ s', Inv s' → (Meets step cond s' is ↔ Meets step cond' s' is) := fun s' hs' =>
      ih (fun s j hj => hiff s j (mem_cons_of_mem i hj))
        (fun s j hj => hinv s j (mem_cons_of_mem i hj)) hs'
    have hmem : i ∈ i :: is := mem_cons_self
    constructor
    · rintro ⟨hcond, hnext⟩
      exact ⟨(hiff s i hmem hs).mp hcond, fun s' o hstep =>
        (hrest s' (hinv s i hmem s' o hs hcond hstep)).mp (hnext s' o hstep)⟩
    · rintro ⟨hcond', hnext⟩
      have hcond := (hiff s i hmem hs).mpr hcond'
      exact ⟨hcond, fun s' o hstep =>
        (hrest s' (hinv s i hmem s' o hs hcond hstep)).mpr (hnext s' o hstep)⟩

/-- If a step that breaks the condition stops, then a run that goes through meets it. -/
theorem meets_of_run_ok (Inv : σ → Prop)
    (hstops : ∀ s i, Inv s → ¬ cond s i → ∃ f, step s i = .error f)
    (hinv : ∀ s i s' o, Inv s → cond s i → step s i = .ok (s', o) → Inv s') :
    ∀ (is : List ι) {s s' : σ}, Inv s → (run step s is).2 = .ok s' → Meets step cond s is := by
  intro is
  induction is with
  | nil => exact fun _ _ => trivial
  | cons i is ih =>
    intro s s' hs hrun
    cases hstep : step s i with
    | error f =>
      rw [run_cons_error hstep] at hrun
      cases hrun
    | ok p =>
      obtain ⟨s1, o⟩ := p
      rw [run_cons_ok hstep] at hrun
      have hcond : cond s i := by
        by_contra hcond
        obtain ⟨f, hf⟩ := hstops s i hs hcond
        rw [hstep] at hf
        cases hf
      exact .cons hstep hcond (ih (hinv s i s1 o hs hcond hstep) hrun)

variable {Inv : σ → Prop}

/-- The run lemma. If a step from a state with the invariant, under the step's
condition, keeps the invariant or stops with an allowed fault, then so does every
run whose steps meet the condition. -/
theorem run_invariant
    (hstep : ∀ s i, Inv s → cond s i → (step s i).Ensures (fun p => Inv p.1) Allowed) :
    ∀ (is : List ι) (s : σ), Inv s → Meets step cond s is →
      (run step s is).2.Ensures Inv Allowed := by
  intro is
  induction is with
  | nil => exact fun s hs _ => hs
  | cons i is ih =>
    intro s hs hmeets
    obtain ⟨hcond, hrest⟩ := hmeets
    have hs' := hstep s i hs hcond
    cases hs_i : step s i with
    | error f =>
      rw [hs_i] at hs'
      rw [run_cons_error hs_i]
      exact hs'
    | ok p =>
      obtain ⟨s', o⟩ := p
      rw [hs_i] at hs'
      rw [run_cons_ok hs_i]
      exact ih s' hs' (hrest s' o hs_i)

/-- The run lemma for steps that need no condition. -/
theorem run_invariant_always (hstep : ∀ s i, Inv s → (step s i).Ensures (fun p => Inv p.1) Allowed)
    (is : List ι) (s : σ) (hs : Inv s) : (run step s is).2.Ensures Inv Allowed := by
  apply run_invariant (fun s i hs _ => hstep s i hs) is s hs
  exact @meets_of_forall _ _ _ step (fun _ _ => True) is s fun _ _ _ => trivial

/-- The loop rule. A property of the state and of the inputs that are left, kept by each step that
returns, holds at the end. -/
theorem run_loop {P : σ → List ι → Prop}
    (hstep : ∀ s i is s' o, P s (i :: is) → step s i = .ok (s', o) → P s' is) :
    ∀ (is : List ι) {s s' : σ}, P s is → (run step s is).2 = .ok s' → P s' [] := by
  intro is
  induction is with
  | nil =>
    intro s s' hs hrun
    obtain rfl : s = s' := ok.inj hrun
    exact hs
  | cons i is ih =>
    intro s s' hs hrun
    cases hs_i : step s i with
    | error f =>
      rw [run_cons_error hs_i] at hrun
      cases hrun
    | ok p =>
      obtain ⟨s1, o⟩ := p
      rw [run_cons_ok hs_i] at hrun
      exact ih (hstep s i is s1 o hs hs_i) hrun

/-- If a step under the condition returns and keeps the invariant, a run that meets the
condition goes through. -/
theorem run_ok_of_meets
    (hstep : ∀ s i, Inv s → cond s i → ∃ s' o, step s i = .ok (s', o) ∧ Inv s') :
    ∀ (is : List ι) {s : σ}, Inv s → Meets step cond s is →
      ∃ s', (run step s is).2 = .ok s' ∧ Inv s' := by
  intro is
  induction is with
  | nil => exact fun {s} hs _ => ⟨s, rfl, hs⟩
  | cons i is ih =>
    intro s hs hmeets
    obtain ⟨s1, o, hs1, hinv⟩ := hstep s i hs hmeets.1
    rw [run_cons_ok hs1]
    exact ih hinv (hmeets.2 s1 o hs1)

/-- A property of the inputs taken and the outputs given so far, kept by each step under the
condition, holds at the end of a run that meets it. -/
theorem run_history {P : List ι → List ο → σ → Prop} (hstep : ∀ is os s i, P is os s → cond s i →
      ∃ s' o, step s i = .ok (s', o) ∧ P (is ++ [i]) (os ++ [o]) s') :
    ∀ (js is : List ι) (os : List ο) {s : σ}, P is os s → Meets step cond s js →
      ∃ s', (run step s js).2 = .ok s' ∧ P (is ++ js) (os ++ (run step s js).1) s' := by
  intro js
  induction js with
  | nil =>
    intro is os s hs _
    refine ⟨s, rfl, ?_⟩
    simpa using hs
  | cons j js ih =>
    intro is os s hs hmeets
    obtain ⟨s1, o, hs1, hP⟩ := hstep is os s j hs hmeets.1
    obtain ⟨s', hfin, hend⟩ := ih (is ++ [j]) (os ++ [o]) hP (hmeets.2 s1 o hs1)
    rw [run_cons_ok hs1]
    refine ⟨s', hfin, ?_⟩
    simpa only [append_assoc, singleton_append] using hend

/-- A run goes through a list of inputs and then through another. -/
theorem run_append (is js : List ι) (h : (run step s is).2 = .ok s') :
    run step s (is ++ js) = ((run step s is).1 ++ (run step s' js).1, (run step s' js).2) := by
  induction is generalizing s with
  | nil =>
    obtain rfl : s = s' := by simpa using h
    rfl
  | cons i is ih =>
    cases hs : step s i with
    | error f =>
      rw [run_cons_error hs] at h
      cases h
    | ok p =>
      rw [run_cons_ok hs] at h
      rw [cons_append, run_cons_ok hs, run_cons_ok hs, ih h, cons_append]

variable {step' : τ → ι → Checked (τ × ο)} {R : σ → τ → Prop}

/-- Machines whose steps take related states to related states, with the same
output or the same fault, have the same outputs and end alike, as long as the steps meet
the condition under which they agree. -/
theorem run_simulation_of_meets (hstep : ∀ s t i, R s t → cond s i →
      Checked.Rel (fun p q => R p.1 q.1 ∧ p.2 = q.2) (step s i) (step' t i)) :
    ∀ (is : List ι) (s : σ) (t : τ), R s t → Meets step cond s is →
      (run step s is).1 = (run step' t is).1 ∧
        Checked.Rel R (run step s is).2 (run step' t is).2 := by
  intro is
  induction is with
  | nil => exact fun s t h _ => ⟨rfl, .ok h⟩
  | cons i is ih =>
    intro s t h hmeets
    have hrel := hstep s t i h hmeets.1
    cases hs : step s i with
    | error f =>
      have ht := hrel.eq_error hs
      rw [run_cons_error hs, run_cons_error ht]
      exact ⟨rfl, .error f⟩
    | ok p =>
      obtain ⟨s', o⟩ := p
      obtain ⟨⟨t', o'⟩, ht, h', rfl⟩ := hrel.exists_ok hs
      rw [run_cons_ok hs, run_cons_ok ht]
      obtain ⟨hout, hfin⟩ := ih s' t' h' (hmeets.2 s' o hs)
      exact ⟨by rw [hout], hfin⟩

/-- A run of a specification that allows several outputs: from `t` the inputs are answered
by the outputs, each step as `rel` allows. -/
inductive Follows (rel : τ → ι → ο → τ → Prop) : τ → List ι → List ο → τ → Prop
  | nil (t : τ) : Follows rel t [] [] t
  | cons {t t' t'' : τ} {i : ι} {o : ο} {is : List ι} {os : List ο} (hstep : rel t i o t')
      (hrest : Follows rel t' is os t'') : Follows rel t (i :: is) (o :: os) t''

/-- A machine whose steps succeed and are allowed by a specification follows it. -/
theorem run_follows {rel : τ → ι → ο → τ → Prop} (hstep : ∀ s t i, R s t → cond s i →
      ∃ s' o t', step s i = .ok (s', o) ∧ rel t i o t' ∧ R s' t') :
    ∀ (is : List ι) (s : σ) (t : τ), R s t → Meets step cond s is →
      ∃ s' t', (run step s is).2 = .ok s' ∧ Follows rel t is (run step s is).1 t' ∧ R s' t' := by
  intro is
  induction is with
  | nil => exact fun s t h _ => ⟨s, t, rfl, .nil t, h⟩
  | cons i is ih =>
    intro s t h hmeets
    obtain ⟨s1, o, t1, hs, hrel, h1⟩ := hstep s t i h hmeets.1
    obtain ⟨s', t', hfin, hfollows, h'⟩ := ih s1 t1 h1 (hmeets.2 s1 o hs)
    rw [run_cons_ok hs]
    exact ⟨s', t', hfin, .cons hrel hfollows, h'⟩

/-- What an observer sees of a run: its outputs, and the fault that stopped it. -/
def trace (step : σ → ι → Checked (σ × ο)) (s : σ) (is : List ι) : List ο × Option Fault :=
  ((run step s is).1, match (run step s is).2 with
    | .ok _ => none
    | .error f => some f)

/-- Machines whose steps agree have the same traces, as long as the steps meet the
condition under which they do. -/
theorem trace_eq_of_meets (hstep : ∀ s t i, R s t → cond s i →
      Checked.Rel (fun p q => R p.1 q.1 ∧ p.2 = q.2) (step s i) (step' t i)) {t : τ} (h : R s t)
        {is : List ι} (hmeets : Meets step cond s is) :
    trace step s is = trace step' t is := by
  obtain ⟨hout, hfin⟩ := run_simulation_of_meets hstep is s t h hmeets
  unfold trace
  rw [hout]
  generalize (run step s is).2 = x at hfin ⊢
  generalize (run step' t is).2 = y at hfin ⊢
  cases hfin with
  | ok _ => rfl
  | error f => rfl

/-- Machines whose steps agree have the same traces. -/
theorem trace_eq (hstep : ∀ s t i, R s t →
      Checked.Rel (fun p q => R p.1 q.1 ∧ p.2 = q.2) (step s i) (step' t i)) {t : τ} (h : R s t)
        (is : List ι) : trace step s is = trace step' t is := by
  apply trace_eq_of_meets (fun s t i h _ => hstep s t i h) h
  exact @meets_of_forall _ _ _ step (fun _ _ => True) is s fun _ _ _ => trivial

end Run

end CS
