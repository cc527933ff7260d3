import AndroidEmu.VirtioGpu.Timelines

/-!
# The order of fences

The callbacks that ran on a ring are the fences before the first task that has not completed, in
their order and once each, at the latest after the next poll, and with asynchronous callbacks after
every call.
-/

namespace AndroidEmu.VirtioGpu

open CS List Function

variable {κ : Type}

/-! ### What the calls say -/

/-- The ring of each task, by id. -/
def taskRings (calls : List (Call κ)) : List Ring :=
  calls.filterMap fun
    | .enqueueTask ring => some ring
    | _ => none

/-- What a call enqueues, when `n` tasks were enqueued before. -/
def enqueuedBy (n : ℕ) : Call κ → Option (Ring × Entry (Fence κ))
  | .enqueueTask ring => some (ring, .wait n)
  | .enqueueFence ring fence => some (ring, .signal fence)
  | _ => none

/-- The entries of all rings, when `n` tasks were enqueued before the calls. -/
def entriesFrom : ℕ → List (Call κ) → List (Ring × Entry (Fence κ))
  | _, [] => []
  | n, c :: calls => (enqueuedBy n c).toList ++ entriesFrom (n + (taskRings [c]).length) calls

def onRing (ring : Ring) (entries : List (Ring × Entry (Fence κ))) : List (Entry (Fence κ)) :=
  entries.filterMap fun p => if p.1 = ring then some p.2 else none

/-- The tasks and fences that the calls enqueued on a ring. -/
def entriesOn (ring : Ring) (calls : List (Call κ)) : List (Entry (Fence κ)) :=
  onRing ring (entriesFrom 0 calls)

def completes (taskId : ℕ) : Call κ → Bool
  | .notifyTaskCompletion id => id = taskId
  | _ => false

def completed (calls : List (Call κ)) (taskId : ℕ) : Bool := calls.any (completes taskId)

/-- A call that the caller may make: a task is completed after it was enqueued, and once. -/
def Admits (withAsyncCallback : Bool) (before : List (Call κ)) : Call κ → Prop
  | .notifyTaskCompletion id => id < (taskRings before).length ∧ completed before id = false
  | .poll _ => withAsyncCallback = false
  | _ => True

instance (withAsyncCallback : Bool) (before : List (Call κ)) :
    DecidablePred (Admits withAsyncCallback before)
  | .notifyTaskCompletion _ => inferInstanceAs (Decidable (_ ∧ _))
  | .poll _ => inferInstanceAs (Decidable (_ = _))
  | .enqueueTask _ | .enqueueFence _ _ => inferInstanceAs (Decidable True)

def Admitted (withAsyncCallback : Bool) : List (Call κ) → List (Call κ) → Prop
  | _, [] => True
  | before, c :: calls =>
    Admits withAsyncCallback before c ∧ Admitted withAsyncCallback (before ++ [c]) calls

instance Admitted.instDecidable (withAsyncCallback : Bool) :
    ∀ before calls : List (Call κ), Decidable (Admitted withAsyncCallback before calls)
  | _, [] => inferInstanceAs (Decidable True)
  | before, c :: calls =>
    have := instDecidable withAsyncCallback (before ++ [c]) calls
    inferInstanceAs (Decidable (_ ∧ _))

/-- The rings whose callbacks a call may run. -/
def Touches (before : List (Call κ)) (ring : Ring) : Call κ → Prop
  | .enqueueTask _ => False
  | .enqueueFence ring' _ => ring = ring'
  | .notifyTaskCompletion id => (taskRings before)[id]? = some ring
  | .poll _ => True

def signalledOn (ring : Ring) (effects : List (Effect κ)) : List (Fence κ) :=
  logOn ring (effects.flatMap Effect.signalled)

/-- The callbacks of a run are those its calls ask for. -/
structure Timely (withAsyncCallback : Bool) (calls : List (Call κ)) : Prop where
  /-- Nothing aborts, and what was enqueued on a ring has run or is queued. -/
  returns : ∃ s, (run step (.create withAsyncCallback) calls).2 = .ok s ∧
    ∀ ring, signals (entriesOn ring calls) =
      signalledOn ring (run step (.create withAsyncCallback) calls).1 ++ signals (s.pending ring)
  /-- The ids are handed out one by one. -/
  ids : (run step (.create withAsyncCallback) calls).1.filterMap Effect.taskId =
    List.range (taskRings calls).length
  /-- The callbacks on a ring ran in the order of the fences, once each, and only those that no
  uncompleted task precedes. -/
  ordered : ∀ ring, signalledOn ring (run step (.create withAsyncCallback) calls).1 <+:
    due (completed calls) (entriesOn ring calls)
  /-- With asynchronous callbacks, all of these have run. -/
  prompt : withAsyncCallback = true → ∀ ring,
    signalledOn ring (run step (.create withAsyncCallback) calls).1 =
      due (completed calls) (entriesOn ring calls)
  /-- After a poll, all of these have run. -/
  polled : ∀ before preference, calls = before ++ [.poll preference] → ∀ ring,
    signalledOn ring (run step (.create withAsyncCallback) calls).1 =
      due (completed calls) (entriesOn ring calls)
  /-- The last call ran callbacks of its own ring only. -/
  apart : ∀ before c, calls = before ++ [c] →
    ∀ e ∈ (run step (.create withAsyncCallback) calls).1.getLast?, ∀ p ∈ e.signalled,
      Touches before p.1 c

/-! ### One more call -/

theorem taskRings_append (calls calls' : List (Call κ)) :
    taskRings (calls ++ calls') = taskRings calls ++ taskRings calls' := filterMap_append

theorem completed_concat (calls : List (Call κ)) (c : Call κ) (k : ℕ) :
    completed (calls ++ [c]) k = (completed calls k || completes k c) := by
  simp [completed]

theorem completed_concat_of_not (calls : List (Call κ)) {c : Call κ}
    (h : ∀ k, completes k c = false) : completed (calls ++ [c]) = completed calls := by
  funext k
  rw [completed_concat, h, Bool.or_false]

theorem entriesFrom_append (calls calls' : List (Call κ)) (n : ℕ) :
    entriesFrom n (calls ++ calls') =
      entriesFrom n calls ++ entriesFrom (n + (taskRings calls).length) calls' := by
  induction calls generalizing n with
  | nil => rfl
  | cons c calls ih =>
    have hlen : (taskRings (c :: calls)).length =
        (taskRings [c]).length + (taskRings calls).length := by
      rw [← length_append, ← taskRings_append]
      rfl
    rw [cons_append, entriesFrom, entriesFrom, ih, append_assoc, hlen, Nat.add_assoc]

def addedOn (ring : Ring) (n : ℕ) (c : Call κ) : List (Entry (Fence κ)) :=
  onRing ring (enqueuedBy n c).toList

theorem entriesOn_concat (ring : Ring) (calls : List (Call κ)) (c : Call κ) :
    entriesOn ring (calls ++ [c]) =
      entriesOn ring calls ++ addedOn ring (taskRings calls).length c := by
  rw [entriesOn, entriesFrom_append, onRing, filterMap_append, Nat.zero_add, entriesFrom,
    entriesFrom, append_nil]
  rfl

theorem Admitted.concat {withAsyncCallback : Bool} {before calls : List (Call κ)} {c : Call κ} :
    Admitted withAsyncCallback before (calls ++ [c]) ↔
      Admitted withAsyncCallback before calls ∧ Admits withAsyncCallback (before ++ calls) c := by
  induction calls generalizing before with
  | nil => simp [Admitted]
  | cons c' calls ih =>
    rw [cons_append, Admitted, Admitted, ih, and_assoc, append_assoc, singleton_append]

variable {ring settled : Ring}

theorem wait_mem_entriesOn {k : ℕ} (calls : List (Call κ))
    (h : (taskRings calls)[k]? = some ring) : .wait k ∈ entriesOn ring calls := by
  induction calls using List.reverseRecOn with
  | nil => simp [taskRings] at h
  | append_singleton calls c ih =>
    rw [entriesOn_concat]
    rw [taskRings_append] at h
    by_cases hk : k < (taskRings calls).length
    · rw [getElem?_append_left hk] at h
      exact mem_append_left _ (ih h)
    -- the task is the one enqueued last
    rw [getElem?_append_right (not_lt.mp hk)] at h
    apply mem_append_right
    cases c with
    | enqueueTask r =>
      have h : [r][k - (taskRings calls).length]? = some ring := h
      obtain ⟨hlt, hr⟩ := List.getElem?_eq_some_iff.mp h
      rw [length_singleton] at hlt
      rw [getElem_singleton] at hr
      obtain rfl : k = (taskRings calls).length := by omega
      simp [addedOn, onRing, enqueuedBy, hr]
    | enqueueFence r f => simp [taskRings] at h
    | notifyTaskCompletion id => simp [taskRings] at h
    | poll preference => simp [taskRings] at h

/-! ### The timelines keep track -/

open VirtioGpuTimelines

/-- The state and the effects of a run belong to its calls. -/
structure Tracks (async : Bool) (calls : List (Call κ)) (s : VirtioGpuTimelines κ)
    (effects : List (Effect κ)) : Prop where
  sound : s.Sound (completed calls) none
  nextId : s.nextId = (taskRings calls).length
  known : ∀ k, completed calls k = true → k < (taskRings calls).length
  ids : effects.filterMap Effect.taskId = List.range (taskRings calls).length
  given : ∀ ring, Given (completed calls) (entriesOn ring calls) (s.pending ring)
    (signalledOn ring effects)
  withAsyncCallback : s.withAsyncCallback = async
  blocked : async = true → ∀ ring, Blocked (completed calls) (s.pending ring)

theorem tracks_create (async : Bool) :
    Tracks async [] (.create async : VirtioGpuTimelines κ) [] where
  sound := ⟨rfl, nodup_nil, fun _ _ h => absurd h not_mem_nil, fun _ => List.Pairwise.nil,
    fun _ _ => rfl⟩
  nextId := rfl
  known := fun _ h => absurd h Bool.false_ne_true
  ids := rfl
  given := fun _ => ⟨[], rfl, by simp, rfl⟩
  withAsyncCallback := rfl
  blocked := fun _ _ e he => by cases he

theorem signalledOn_concat (ring : Ring) (effects : List (Effect κ)) (e : Effect κ) :
    signalledOn ring (effects ++ [e]) = signalledOn ring effects ++ logOn ring e.signalled := by
  rw [signalledOn, flatMap_append, logOn_append, signalledOn]
  simp

variable {async : Bool} {calls : List (Call κ)} {effects : List (Effect κ)}
  {s s' s1 : VirtioGpuTimelines κ} {done : ℕ → Bool}

theorem pending_of_queue (h : s'.queue ring = (s.queue ring).dropWhile (TimelineItem.passes done)) :
    s'.pending ring = (s.pending ring).dropWhile (Entry.passes done) := by
  rw [pending, h, pending, dropWhile_map]
  rfl

theorem pending_congr (h : s'.queue ring = s.queue ring) : s'.pending ring = s.pending ring := by
  rw [pending, h, pending]

namespace Tracks

theorem completed_nextId (h : Tracks async calls s effects) :
    completed calls (taskRings calls).length = false := by
  by_contra hdone
  exact lt_irrefl _ (h.known _ (by simpa using hdone))

theorem mem_settledLog {p : Ring × Fence κ} (hp : p ∈ s.settledLog done ring) : p.1 = ring := by
  unfold settledLog at hp
  split_ifs at hp with hasync
  · obtain ⟨f, -, rfl⟩ := List.mem_map.mp hp
    rfl
  · cases hp

theorem given_settled {held : Option ℕ} {entries : Ring → List (Entry (Fence κ))}
    (h : ∀ r, Given done (entries r) (s1.pending r) (signalledOn r effects))
    (hsettled : Settled done held settled s1 s') (r : Ring) (taskId : Option ℕ) :
    Given done (entries r) (s'.pending r)
      (signalledOn r (effects ++ [⟨taskId, s1.settledLog done settled⟩])) := by
  have hqueue := hsettled.queue
  rw [signalledOn_concat]
  dsimp only [settledLog]
  cases hasync : s1.withAsyncCallback with
  | false =>
    rw [hasync, if_neg Bool.false_ne_true] at hqueue
    rw [if_neg Bool.false_ne_true, pending_congr (s := s1) (by rw [hqueue])]
    simpa [logOn] using h r
  | true =>
    rw [hasync, if_pos rfl] at hqueue
    rw [if_pos rfl]
    by_cases hr : r = settled
    · subst hr
      rw [logOn_map_self, pending_of_queue (s := s1) (by rw [hqueue, update_self])]
      exact (h r).poll
    · rw [logOn_map_of_ne (Ne.symm hr), append_nil,
        pending_congr (s := s1) (by rw [hqueue, update_of_ne hr])]
      exact h r

/-- With asynchronous callbacks all rings are blocked after the end of a call, if all others were
before. -/
theorem blocked_settled {held : Option ℕ} (hasync : s1.withAsyncCallback = true)
    (hsettled : Settled done held settled s1 s')
    (h : ∀ r, r ≠ settled → Blocked done (s1.pending r)) (r : Ring) :
    Blocked done (s'.pending r) := by
  have hqueue := hsettled.queue
  rw [hasync, if_pos rfl] at hqueue
  by_cases hr : r = settled
  · subst hr
    rw [pending_of_queue (s := s1) (by rw [hqueue, update_self])]
    exact blocked_dropWhile _ _
  · rw [pending_congr (s := s1) (by rw [hqueue, update_of_ne hr])]
    exact h r hr

/-- The call succeeds, the timelines keep track, only rings it touches are affected, and after a
poll every ring is blocked. -/
def Advances (async : Bool) (calls : List (Call κ)) (s : VirtioGpuTimelines κ)
    (effects : List (Effect κ)) (c : Call κ) : Prop :=
  ∃ s' e, VirtioGpu.step s c = .ok (s', e) ∧ Tracks async (calls ++ [c]) s' (effects ++ [e]) ∧
    (∀ p ∈ e.signalled, Touches calls p.1 c) ∧
    ((∃ preference, c = .poll preference) →
      ∀ ring, Blocked (completed (calls ++ [c])) (s'.pending ring))

section

variable (h : Tracks async calls s effects)

include h

theorem step_enqueueTask (ring : Ring) : Advances async calls s effects (.enqueueTask ring) := by
  have hdone : completed (calls ++ [.enqueueTask ring]) = completed calls :=
    completed_concat_of_not calls fun _ => rfl
  have hrings :
      (taskRings (calls ++ [.enqueueTask ring])).length = (taskRings calls).length + 1 := by
    rw [taskRings_append, length_append]
    rfl
  have hnew : completed calls s.nextId = false := by rw [h.nextId, h.completed_nextId]
  obtain ⟨hsound, hnext, hasync, hpending⟩ := h.sound.enqueueTask ring hnew
  have hadded : ∀ r, addedOn r (taskRings calls).length (.enqueueTask ring : Call κ) =
      if ring = r then [.wait s.nextId] else [] := by
    intro r
    rw [h.nextId]
    by_cases hr : ring = r
    · simp [addedOn, onRing, enqueuedBy, hr]
    · simp [addedOn, onRing, enqueuedBy, hr]
  refine ⟨(s.enqueueTask ring).1, ⟨some s.nextId, []⟩, rfl, ?_, by simp, by simp⟩
  refine ⟨hdone.symm ▸ hsound, by rw [hnext, h.nextId, hrings], fun k hk => ?_, ?_, fun r => ?_,
    hasync.trans h.withAsyncCallback, fun ha r => ?_⟩
  · rw [hdone] at hk
    have := h.known k hk
    omega
  · rw [filterMap_append, h.ids, hrings, range_succ, h.nextId]
    rfl
  · rw [hdone, entriesOn_concat, signalledOn_concat, hpending, hadded]
    simpa [logOn] using (h.given r).append (if ring = r then [.wait s.nextId] else [])
  · rw [hdone, hpending]
    split_ifs
    · exact (h.blocked ha r).append_wait hnew
    · rw [append_nil]
      exact h.blocked ha r

theorem step_enqueueFence (ring : Ring) (fence : Fence κ) :
    Advances async calls s effects (.enqueueFence ring fence) := by
  have hdone : completed (calls ++ [.enqueueFence ring fence]) = completed calls :=
    completed_concat_of_not calls fun _ => rfl
  have hrings : taskRings (calls ++ [.enqueueFence ring fence]) = taskRings calls := by
    rw [taskRings_append]
    exact append_nil _
  have hadded : ∀ r, addedOn r (taskRings calls).length (.enqueueFence ring fence) =
      if ring = r then [.signal fence] else [] := by
    intro r
    by_cases hr : ring = r
    · simp [addedOn, onRing, enqueuedBy, hr]
    · simp [addedOn, onRing, enqueuedBy, hr]
  obtain ⟨hsound, hring⟩ := h.sound.enqueue ring (.fence fence) (by simp) (by simp)
  have hframe := enqueue_frame s ring (.fence fence)
  have hasync : (s.enqueue ring (.fence fence)).withAsyncCallback = async := by
    rw [hframe]
    exact h.withAsyncCallback
  obtain ⟨s', hpoll, hsettled, -⟩ := hsound.pollIfAsync hring
  have hgiven : ∀ r, Given (completed calls) (entriesOn r (calls ++ [.enqueueFence ring fence]))
      ((s.enqueue ring (.fence fence)).pending r) (signalledOn r effects) := by
    intro r
    rw [entriesOn_concat, hadded, h.sound.pending_enqueue]
    exact (h.given r).append _
  refine ⟨s', _, by simp only [VirtioGpu.step, enqueueFence, hpoll]; rfl, ?_, ?_, by simp⟩
  · refine ⟨hdone.symm ▸ hsettled.sound, ?_, ?_, ?_, ?_,
      hsettled.withAsyncCallback.trans hasync, fun ha r => ?_⟩
    · rw [hsettled.nextId, hrings, ← h.nextId, hframe]
    · rw [hdone, hrings]
      exact h.known
    · rw [filterMap_append, h.ids, hrings]
      exact append_nil _
    · intro r
      rw [hdone]
      exact given_settled hgiven hsettled r none
    · rw [hdone]
      refine blocked_settled (hasync.trans ha) hsettled (fun r' hr' => ?_) r
      rw [h.sound.pending_enqueue, if_neg (Ne.symm hr'), append_nil]
      exact h.blocked ha r'
  · intro p hp
    exact mem_settledLog hp

theorem step_notifyTaskCompletion {id : ℕ}
    (hlt : id < (taskRings calls).length) (hnot : completed calls id = false) :
    Advances async calls s effects (.notifyTaskCompletion id) := by
  have hdone : completed (calls ++ [.notifyTaskCompletion id]) =
      fun j => completed calls j || decide (id = j) := by
    funext k
    rw [completed_concat, completes]
  have hrings : taskRings (calls ++ [.notifyTaskCompletion id]) = taskRings calls := by
    rw [taskRings_append]
    exact append_nil _
  -- the task waits on its ring, and on no other
  obtain ⟨ring, hring⟩ : ∃ ring, (taskRings calls)[id]? = some ring :=
    ⟨_, getElem?_eq_getElem hlt⟩
  have hqueued : .task id ∈ s.queue ring := by
    have hwait := (h.given ring).mem_pending hnot (wait_mem_entriesOn calls hring)
    obtain ⟨item, hitem, hentry⟩ := List.mem_map.mp hwait
    cases item with
    | fence f => cases hentry
    | task a =>
      cases hentry
      exact hitem
  obtain ⟨s', hnotify, hsettled⟩ := h.sound.notifyTaskCompletion hqueued hnot
  have hgiven : ∀ r, Given (fun j => completed calls j || decide (id = j))
      (entriesOn r (calls ++ [.notifyTaskCompletion id])) (s.pending r)
        (signalledOn r effects) := by
    intro r
    rw [entriesOn_concat]
    simp only [addedOn, onRing, enqueuedBy, Option.toList_none, filterMap_nil, append_nil]
    exact (h.given r).mono fun k hk => by simp [hk]
  refine ⟨s', _, by simp only [VirtioGpu.step, hnotify]; rfl, ?_, ?_, by simp⟩
  · refine ⟨hdone.symm ▸ hsettled.sound, ?_, ?_, ?_, ?_,
      hsettled.withAsyncCallback.trans h.withAsyncCallback, fun ha r => ?_⟩
    · rw [hsettled.nextId, hrings, h.nextId]
    · intro k hk
      rw [hdone] at hk
      rw [hrings]
      rcases Bool.or_eq_true _ _ |>.mp hk with hk | hk
      · exact h.known k hk
      · exact of_decide_eq_true hk ▸ hlt
    · rw [filterMap_append, h.ids, hrings]
      exact append_nil _
    · intro r
      rw [hdone]
      exact given_settled hgiven hsettled r none
    · rw [hdone]
      refine blocked_settled (h.withAsyncCallback.trans ha) hsettled (fun r' hr' => ?_) r
      apply (h.blocked ha r').congr
      intro k hk
      -- the entries of the other rings do not wait for this task
      have hne : id ≠ k := by
        rintro rfl
        obtain ⟨item, hitem, hentry⟩ := List.mem_map.mp hk
        cases item with
        | fence f => cases hentry
        | task a =>
          cases hentry
          have hhere := (h.sound.live r' id hitem).1
          rw [(h.sound.live ring id hqueued).1] at hhere
          exact hr' (Task.mk.inj (Option.some.inj hhere)).2.1.symm
      simp [hne]
  · intro p hp
    rw [Touches, mem_settledLog hp, hring]

theorem step_poll (hsync : async = false)
    (preference : List Ring) : Advances async calls s effects (.poll preference) := by
  have hdone : completed (calls ++ [.poll preference]) = completed calls :=
    completed_concat_of_not calls fun _ => rfl
  have hrings : taskRings (calls ++ [.poll preference]) = taskRings calls := by
    rw [taskRings_append]
    exact append_nil _
  obtain ⟨s', log, hpoll, h', hlog⟩ := h.sound.poll (h.withAsyncCallback.trans hsync) preference
  -- a ring without a timeline has an empty queue
  have hpending : ∀ r, s'.pending r = (s.pending r).dropWhile (Entry.passes (completed calls)) := by
    intro r
    apply pending_of_queue
    rw [h'.queue]
    split_ifs with hr
    · rfl
    · rw [h.sound.known r hr]
      rfl
  refine ⟨s', ⟨none, log⟩, by simp only [VirtioGpu.step, hpoll]; rfl, ?_, fun _ _ => trivial, ?_⟩
  · refine ⟨hdone.symm ▸ h'.sound, ?_, ?_, ?_, fun r => ?_,
      h'.withAsyncCallback.trans h.withAsyncCallback, fun ha r => ?_⟩
    · rw [h'.nextId, hrings, h.nextId]
    · rw [hdone, hrings]
      exact h.known
    · rw [filterMap_append, h.ids, hrings]
      exact append_nil _
    · rw [hdone, entriesOn_concat, signalledOn_concat, hpending]
      simp only [addedOn, onRing, enqueuedBy, Option.toList_none, filterMap_nil, append_nil, hlog]
      exact (h.given r).poll
    · rw [hdone, hpending]
      exact blocked_dropWhile _ _
  · intro _ r
    rw [hdone, hpending]
    exact blocked_dropWhile _ _

theorem step (c : Call κ) (hadmits : Admits async calls c) : Advances async calls s effects c := by
  cases c with
  | enqueueTask ring => exact h.step_enqueueTask ring
  | enqueueFence ring fence => exact h.step_enqueueFence ring fence
  | notifyTaskCompletion id => exact h.step_notifyTaskCompletion hadmits.1 hadmits.2
  | poll preference => exact h.step_poll hadmits preference

end

end Tracks

/-! ### Runs -/

theorem run_tracks (async : Bool) (calls : List (Call κ)) (hadmitted : Admitted async [] calls) :
    ∃ s, (run step (.create async) calls).2 = .ok s ∧
      Tracks async calls s (run step (.create async) calls).1 ∧
      ∀ before c, calls = before ++ [c] →
        (∀ e ∈ (run step (.create async) calls).1.getLast?, ∀ p ∈ e.signalled,
          Touches before p.1 c) ∧
        ((∃ preference, c = .poll preference) →
          ∀ ring, Blocked (completed calls) (s.pending ring)) := by
  induction calls using List.reverseRecOn with
  | nil => exact ⟨_, rfl, tracks_create async, fun before c h => by simp at h⟩
  | append_singleton calls c ih =>
    obtain ⟨hbefore, hadmits⟩ := Admitted.concat.mp hadmitted
    obtain ⟨s, hrun, htracks, -⟩ := ih hbefore
    obtain ⟨s', e, hstep, htracks', htouches, hblocked⟩ := htracks.step c hadmits
    have hlast : run step (.create async) (calls ++ [c]) =
        ((run step (.create async) calls).1 ++ [e], .ok s') := by
      rw [run_append _ _ hrun, run_cons_ok hstep]
      rfl
    rw [hlast]
    refine ⟨s', rfl, htracks', fun before c' heq => ?_⟩
    obtain ⟨rfl, hc⟩ := append_inj' heq rfl
    obtain rfl : c = c' := by simpa using hc
    refine ⟨fun e' he' => ?_, hblocked⟩
    obtain rfl : e = e' := by simpa using he'
    exact htouches

/-- In every run of admitted calls the callbacks run as the history asks. -/
theorem run_timely (withAsyncCallback : Bool) (calls : List (Call κ))
    (hadmitted : Admitted withAsyncCallback [] calls) : Timely withAsyncCallback calls := by
  obtain ⟨s, hrun, htracks, hlast⟩ := run_tracks withAsyncCallback calls hadmitted
  refine ⟨⟨s, hrun, fun ring => (htracks.given ring).signals_eq⟩, htracks.ids,
    fun ring => (htracks.given ring).isPrefix, fun hasync ring => ?_,
    fun before preference heq ring => ?_, fun before c heq => (hlast before c heq).1⟩
  · exact (htracks.given ring).eq_due (htracks.blocked hasync ring)
  · exact (htracks.given ring).eq_due ((hlast before _ heq).2 ⟨preference, rfl⟩ ring)

/-- Tasks of two rings that complete in the other order, with and without asynchronous
callbacks. -/
theorem run_timely_two_rings :
    let calls : List (Call ℕ) := [.enqueueTask .global, .enqueueFence .global ⟨7, 0⟩,
      .enqueueTask (.contextSpecific 1 2), .enqueueFence (.contextSpecific 1 2) ⟨7, 1⟩,
      .enqueueTask .global, .enqueueFence .global ⟨8, 2⟩, .notifyTaskCompletion 2,
      .notifyTaskCompletion 1, .notifyTaskCompletion 0]
    Timely true calls ∧ Timely false (calls ++ [.poll [], .enqueueFence .global ⟨9, 3⟩]) :=
  ⟨run_timely true _ (by decide), run_timely false _ (by decide)⟩

end AndroidEmu.VirtioGpu
