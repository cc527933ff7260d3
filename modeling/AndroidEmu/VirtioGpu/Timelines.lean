import AndroidEmu.CS.Barrier
import AndroidEmu.CS.Store

/-!
# Timelines of the virtio GPU

`gfxstream/host/VirtioGpuTimelines.cpp` keeps one queue of tasks and fences for each ring. The queue
owns the tasks, a table of weak pointers finds them by their id, and the deleter of a task takes it
out of the table.
-/

namespace AndroidEmu.VirtioGpu

open CS Checked Function List Store

/-- `VirtioGpuRing`. -/
inductive Ring
  | global
  | contextSpecific (ctxId : UInt32) (ringIdx : UInt8)
  deriving DecidableEq, Repr

/-- `Fence`; the callback stays what the caller gave. -/
structure Fence (κ : Type) where
  id : UInt64
  completionCallback : κ
  deriving DecidableEq, Repr

/-- `Task`, with the number of shared pointers to it. -/
structure Task where
  id : ℕ
  ring : Ring
  hasCompleted : Bool
  refs : ℕ
  deriving DecidableEq, Repr

/-- A task is given by the address of the shared object. -/
inductive TimelineItem (κ : Type)
  | fence (f : Fence κ)
  | task (address : ℕ)
  deriving DecidableEq, Repr

/-- The ids are 64-bit numbers, which no run exhausts, so they are counted by a natural number.
`mTimelineQueues` is the list of its keys and their queues. Ids and names for tracing are left out.
-/
structure VirtioGpuTimelines (κ : Type) where
  nextId : ℕ
  tasks : Store Task
  taskIdToTask : ℕ → Option ℕ
  rings : List Ring
  queue : Ring → List (TimelineItem κ)
  withAsyncCallback : Bool

/-- The callbacks a call runs, each with the ring it was polled on. -/
abbrev Log (κ : Type) := List (Ring × Fence κ)

variable {κ : Type}

namespace VirtioGpuTimelines

/-- `VirtioGpuTimelines::create`. -/
def create (withAsyncCallback : Bool) : VirtioGpuTimelines κ :=
  ⟨0, .empty, fun _ => none, [], fun _ => [], withAsyncCallback⟩

/-- `VirtioGpuTimelines::GetOrCreateTimelineLocked`. -/
def getOrCreateTimelineLocked (s : VirtioGpuTimelines κ) (ring : Ring) : VirtioGpuTimelines κ :=
  if ring ∈ s.rings then s
  else { s with rings := s.rings ++ [ring], queue := Function.update s.queue ring [] }

def setQueue (s : VirtioGpuTimelines κ) (ring : Ring) (items : List (TimelineItem κ)) :
    VirtioGpuTimelines κ :=
  { s with queue := Function.update s.queue ring items }

/-- `emplace_back` on the queue of a ring, which is created if need be. -/
def enqueue (s : VirtioGpuTimelines κ) (ring : Ring) (item : TimelineItem κ) :
    VirtioGpuTimelines κ :=
  let s := s.getOrCreateTimelineLocked ring
  s.setQueue ring (s.queue ring ++ [item])

/-- A shared pointer to a task goes away. The last one calls the deleter, which takes the task
out of the table. -/
def release (s : VirtioGpuTimelines κ) (address : ℕ) : Checked (VirtioGpuTimelines κ) := do
  let task ← s.tasks.load address
  if task.refs ≤ 1 then
    let tasks ← s.tasks.free address
    return { s with
      tasks := tasks, taskIdToTask := Function.update s.taskIdToTask task.id none }
  else
    let tasks ← s.tasks.modify address fun t => { t with refs := t.refs - 1 }
    return { s with tasks := tasks }

def erase : VirtioGpuTimelines κ → List (TimelineItem κ) → Checked (VirtioGpuTimelines κ)
  | s, [] => .ok s
  | s, .fence _ :: items => s.erase items
  | s, .task address :: items => do
    let s ← s.release address
    s.erase items

/-- The loop of `poll_locked`: the fences whose callbacks run, the items passed, and the items
from the first task on that has not completed. -/
def scan (tasks : Store Task) :
    List (TimelineItem κ) → Checked (List (Fence κ) × List (TimelineItem κ) × List (TimelineItem κ))
  | [] => .ok ([], [], [])
  | .fence f :: items => do
    let (fences, passed, rest) ← scan tasks items
    return (f :: fences, .fence f :: passed, rest)
  | .task address :: items => do
    let task ← tasks.load address
    if task.hasCompleted then
      let (fences, passed, rest) ← scan tasks items
      return (fences, .task address :: passed, rest)
    else return ([], [], .task address :: items)

/-- `VirtioGpuTimelines::poll_locked`. -/
def pollLocked (s : VirtioGpuTimelines κ) (ring : Ring) :
    Checked (VirtioGpuTimelines κ × Log κ) := do
  if ring ∉ s.rings then .error .exit
  let (fences, passed, rest) ← scan s.tasks (s.queue ring)
  let s ← (s.setQueue ring rest).erase passed
  return (s, fences.map (ring, ·))

/-- `VirtioGpuTimelines::enqueueTask`. -/
def enqueueTask (s : VirtioGpuTimelines κ) (ring : Ring) : VirtioGpuTimelines κ × ℕ :=
  let id := s.nextId
  let (tasks, address) := s.tasks.alloc ⟨id, ring, false, 1⟩
  let s := { s with
    nextId := s.nextId + 1
    tasks := tasks
    taskIdToTask := Function.update s.taskIdToTask id (some address) }
  (s.enqueue ring (.task address), id)

/-- Poll a ring at the end of a call, if callbacks are asynchronous. -/
def pollIfAsync (s : VirtioGpuTimelines κ) (ring : Ring) : Checked (VirtioGpuTimelines κ × Log κ) :=
  if s.withAsyncCallback then s.pollLocked ring else .ok (s, [])

/-- `VirtioGpuTimelines::enqueueFence`. -/
def enqueueFence (s : VirtioGpuTimelines κ) (ring : Ring) (fence : Fence κ) :
    Checked (VirtioGpuTimelines κ × Log κ) :=
  (s.enqueue ring (.fence fence)).pollIfAsync ring

/-- While it runs it holds a shared pointer to the task. -/
def notifyTaskCompletion (s : VirtioGpuTimelines κ) (taskId : ℕ) :
    Checked (VirtioGpuTimelines κ × Log κ) :=
  match s.taskIdToTask taskId with
  | none => .error .exit
  | some address =>
    match s.tasks.cell address with
    -- the weak pointer has expired
    | none => .error .exit
    | some task =>
      if task.id ≠ taskId then .error .exit
      else if task.hasCompleted then .error .exit
      else do
        let tasks ← s.tasks.modify address fun t =>
          { t with hasCompleted := true, refs := t.refs + 1 }
        let (s, log) ← { s with tasks := tasks }.pollIfAsync task.ring
        let s ← s.release address
        return (s, log)

def pollRings : VirtioGpuTimelines κ → List Ring → Checked (VirtioGpuTimelines κ × Log κ)
  | s, [] => .ok (s, [])
  | s, ring :: rings => do
    let (s, log) ← s.pollLocked ring
    let (s, log') ← s.pollRings rings
    return (s, log ++ log')

/-- The keys of an unordered map in the order of an iteration, of which nothing is known but a
preference. -/
def visit (preference rings : List Ring) : List Ring :=
  preference.dedup.filter (· ∈ rings) ++ rings.filter (· ∉ preference)

/-- `VirtioGpuTimelines::poll`. -/
def poll (s : VirtioGpuTimelines κ) (preference : List Ring) :
    Checked (VirtioGpuTimelines κ × Log κ) :=
  if s.withAsyncCallback then .error .exit
  else s.pollRings (visit preference s.rings)

end VirtioGpuTimelines

/-! ### The machine -/

/-- The calls; `poll` comes with a preference that settles the order of its iteration. -/
inductive Call (κ : Type)
  | enqueueTask (ring : Ring)
  | enqueueFence (ring : Ring) (fence : Fence κ)
  | notifyTaskCompletion (taskId : ℕ)
  | poll (preference : List Ring)
  deriving DecidableEq, Repr

structure Effect (κ : Type) where
  taskId : Option ℕ
  signalled : Log κ
  deriving DecidableEq, Repr

def step (s : VirtioGpuTimelines κ) : Call κ → Checked (VirtioGpuTimelines κ × Effect κ)
  | .enqueueTask ring =>
    let (s, id) := s.enqueueTask ring
    .ok (s, ⟨some id, []⟩)
  | .enqueueFence ring fence => do
    let (s, log) ← s.enqueueFence ring fence
    return (s, ⟨none, log⟩)
  | .notifyTaskCompletion taskId => do
    let (s, log) ← s.notifyTaskCompletion taskId
    return (s, ⟨none, log⟩)
  | .poll preference => do
    let (s, log) ← s.poll preference
    return (s, ⟨none, log⟩)

/-! ### Queues, objects and the table -/

namespace TimelineItem

/-- A fence is a signal, a task a job to wait for. -/
def entry : TimelineItem κ → Entry (Fence κ)
  | .fence f => .signal f
  | .task address => .wait address

/-- Nothing holds up the queue at this item. -/
def passes (done : ℕ → Bool) (item : TimelineItem κ) : Bool := item.entry.passes done

end TimelineItem

def logOn (ring : Ring) (log : Log κ) : List (Fence κ) :=
  log.filterMap fun p => if p.1 = ring then some p.2 else none

theorem logOn_append (ring : Ring) (log log' : Log κ) :
    logOn ring (log ++ log') = logOn ring log ++ logOn ring log' := filterMap_append

theorem logOn_map_self (ring : Ring) (fences : List (Fence κ)) :
    logOn ring (fences.map (ring, ·)) = fences := by
  simp [logOn, filterMap_map]

theorem logOn_map_of_ne {ring ring' : Ring} (h : ring' ≠ ring) (fences : List (Fence κ)) :
    logOn ring (fences.map (ring', ·)) = [] := by
  simp [logOn, filterMap_map, h]

variable {a k : ℕ}

namespace VirtioGpuTimelines

/-- The entries that wait in the queue of a ring. -/
def pending (s : VirtioGpuTimelines κ) (ring : Ring) : List (Entry (Fence κ)) :=
  (s.queue ring).map TimelineItem.entry

/-- The shared pointers to a queued task: the queue's, and the one held by a call. -/
def owners (held : Option ℕ) (address : ℕ) : ℕ := if held = some address then 2 else 1

/-- The queued tasks are live objects, found under their ids, each on one ring and once there.
The task `held` has one shared pointer more. -/
structure Sound (s : VirtioGpuTimelines κ) (done : ℕ → Bool) (held : Option ℕ) : Prop where
  bound : s.tasks.bound = s.nextId
  rings : s.rings.Nodup
  live : ∀ ring a, .task a ∈ s.queue ring →
    s.tasks.cell a = some ⟨a, ring, done a, owners held a⟩ ∧ s.taskIdToTask a = some a
  once : ∀ ring, (s.queue ring).Pairwise fun i j => ∀ a, i = .task a → j ≠ .task a
  known : ∀ ring, ring ∉ s.rings → s.queue ring = []

variable {s : VirtioGpuTimelines κ} {done : ℕ → Bool} {held : Option ℕ} {ring : Ring}

open TimelineItem

theorem scan_eq (done : ℕ → Bool) (tasks : Store Task) (items : List (TimelineItem κ))
    (hlive : ∀ a, .task a ∈ items → ∃ t, tasks.cell a = some t ∧ t.hasCompleted = done a) :
    scan tasks items = .ok (due done (items.map entry),
      items.takeWhile (passes done), items.dropWhile (passes done)) := by
  induction items with
  | nil => rfl
  | cons item items ih =>
    have ih := ih fun a ha => hlive a (mem_cons_of_mem item ha)
    cases item with
    | fence f =>
      rw [scan, ih]
      rfl
    | task a =>
      obtain ⟨t, ht, hdone⟩ := hlive a mem_cons_self
      rw [scan, load_of ht, ok_bind, hdone]
      cases hd : done a with
      | true =>
        have hpass : passes done (.task a : TimelineItem κ) = true := hd
        rw [if_pos rfl, ih, takeWhile_cons_of_pos hpass, dropWhile_cons_of_pos hpass,
          map_cons, due_cons_of_passes hpass]
        rfl
      | false =>
        have hpass : passes done (.task a : TimelineItem κ) = false := hd
        rw [if_neg Bool.false_ne_true, takeWhile_cons_of_neg (by simp [hpass]),
          dropWhile_cons_of_neg (by simp [hpass]), map_cons, due_cons_of_not_passes hpass]
        rfl

/-! ### Shared pointers -/

theorem release_last {t : Task} (ht : s.tasks.cell a = some t) (hrefs : t.refs = 1) :
    s.release a = .ok { s with
      tasks := s.tasks.put a none
      taskIdToTask := update s.taskIdToTask t.id none } := by
  rw [release, load_of ht, ok_bind, if_pos hrefs.le, free_of ht]
  rfl

theorem release_shared {t : Task} (ht : s.tasks.cell a = some t) (hrefs : t.refs = 2) :
    s.release a = .ok { s with tasks := s.tasks.put a (some { t with refs := 1 }) } := by
  rw [release, load_of ht, ok_bind, if_neg (by omega), modify_of ht, hrefs]
  rfl

/-- What erasing items does: other tasks stay, and so does one that is held. -/
structure Erased (items : List (TimelineItem κ)) (held : Option ℕ)
    (s s' : VirtioGpuTimelines κ) : Prop where
  frame : s' = { s with tasks := s'.tasks, taskIdToTask := s'.taskIdToTask }
  bound : s'.tasks.bound = s.tasks.bound
  other : ∀ a, .task a ∉ items →
    s'.tasks.cell a = s.tasks.cell a ∧ s'.taskIdToTask a = s.taskIdToTask a
  held : ∀ a, .task a ∈ items → held = some a →
    s'.tasks.cell a = (s.tasks.cell a).map fun t => { t with refs := 1 }

theorem erase_ok (items : List (TimelineItem κ)) : ∀ s : VirtioGpuTimelines κ,
    (∀ a, .task a ∈ items → ∃ t, s.tasks.cell a = some t ∧ t.id = a ∧ t.refs = owners held a) →
    items.Pairwise (fun i j => ∀ a, i = .task a → j ≠ .task a) →
    ∃ s', s.erase items = .ok s' ∧ Erased items held s s' := by
  induction items with
  | nil => exact fun s _ _ => ⟨s, rfl, rfl, rfl, fun _ _ => ⟨rfl, rfl⟩, by simp⟩
  | cons item items ih =>
    intro s hlive honce
    obtain ⟨hitem, honce'⟩ := pairwise_cons.mp honce
    cases item with
    | fence f =>
      obtain ⟨s', herase, h⟩ := ih s (fun a ha => hlive a (mem_cons_of_mem _ ha)) honce'
      refine ⟨s', herase, h.frame, h.bound, fun a ha => h.other a ?_, fun a ha => h.held a ?_⟩
      · exact fun hmem => ha (mem_cons_of_mem _ hmem)
      · exact (mem_cons.mp ha).resolve_left (by simp)
    | task b =>
      obtain ⟨t, ht, hid, hrefs⟩ := hlive b mem_cons_self
      have hb : .task b ∉ items := fun hmem => hitem _ hmem b rfl rfl
      -- the first release touches only the object and the entry of `b`
      obtain ⟨s1, hrelease, hframe, hbound, hother, hheld⟩ : ∃ s1, s.release b = .ok s1 ∧
          s1 = { s with tasks := s1.tasks, taskIdToTask := s1.taskIdToTask } ∧
          s1.tasks.bound = s.tasks.bound ∧
          (∀ a, a ≠ b → s1.tasks.cell a = s.tasks.cell a ∧ s1.taskIdToTask a = s.taskIdToTask a) ∧
          (held = some b → s1.tasks.cell b = some { t with refs := 1 }) := by
        by_cases hh : held = some b
        · rw [owners, if_pos hh] at hrefs
          refine ⟨_, release_shared ht hrefs, rfl, put_bound ht, fun a hab => ⟨?_, rfl⟩,
            fun _ => put_cell_self _ _ _⟩
          exact put_cell_of_ne hab
        · rw [owners, if_neg hh] at hrefs
          refine ⟨_, release_last ht hrefs, rfl, put_bound ht, fun a hab => ⟨?_, ?_⟩,
            fun h => absurd h hh⟩
          · exact put_cell_of_ne hab
          · exact update_of_ne (by rwa [hid]) _ _
      have hlive1 : ∀ a, .task a ∈ items →
          ∃ t, s1.tasks.cell a = some t ∧ t.id = a ∧ t.refs = owners held a := by
        intro a ha
        have hab : a ≠ b := fun h => hb (h ▸ ha)
        obtain ⟨t', ht', hrest⟩ := hlive a (mem_cons_of_mem _ ha)
        exact ⟨t', (hother a hab).1.trans ht', hrest⟩
      obtain ⟨s', herase, h⟩ := ih s1 hlive1 honce'
      refine ⟨s', by rw [erase, hrelease]; exact herase, ?_, h.bound.trans hbound, ?_, ?_⟩
      · rw [h.frame, hframe]
      · intro a ha
        obtain ⟨hab, ha⟩ := not_or.mp (fun h => ha (mem_cons.mpr h))
        have hab : a ≠ b := fun h => hab (h ▸ rfl)
        exact ⟨(h.other a ha).1.trans (hother a hab).1, (h.other a ha).2.trans (hother a hab).2⟩
      · intro a ha hh
        by_cases hab : a = b
        · subst hab
          rw [(h.other a hb).1, hheld hh, ht]
          rfl
        · have ha : .task a ∈ items := (mem_cons.mp ha).resolve_left (by simpa using hab)
          rw [h.held a ha hh, (hother a hab).1]

/-! ### Polling -/

structure Polled (done : ℕ → Bool) (held : Option ℕ) (ring : Ring)
    (s s' : VirtioGpuTimelines κ) : Prop where
  sound : s'.Sound done held
  queue : s'.queue = Function.update s.queue ring
    ((s.queue ring).dropWhile (TimelineItem.passes done))
  rings : s'.rings = s.rings
  nextId : s'.nextId = s.nextId
  withAsyncCallback : s'.withAsyncCallback = s.withAsyncCallback
  held : ∀ a, held = some a → .task a ∈ s.queue ring → .task a ∉ s'.queue ring →
    s'.tasks.cell a = some ⟨a, ring, done a, 1⟩

theorem Sound.pollLocked (h : s.Sound done held) (hring : ring ∈ s.rings) :
    ∃ s', s.pollLocked ring = .ok (s', (due done (s.pending ring)).map (ring, ·)) ∧
      Polled done held ring s s' := by
  set passed := (s.queue ring).takeWhile (passes done) with hpassed
  set rest := (s.queue ring).dropWhile (passes done) with hrest
  have hsplit : passed ++ rest = s.queue ring := takeWhile_append_dropWhile
  have honce : (passed ++ rest).Pairwise fun i j => ∀ a, i = .task a → j ≠ .task a :=
    hsplit ▸ h.once ring
  obtain ⟨honce_passed, honce_rest, hapart⟩ := pairwise_append.mp honce
  have hscan := scan_eq done s.tasks (s.queue ring)
    fun a ha => ⟨_, (h.live ring a ha).1, rfl⟩
  have hlive : ∀ a, .task a ∈ passed →
      ∃ t, (s.setQueue ring rest).tasks.cell a = some t ∧ t.id = a ∧ t.refs = owners held a :=
    fun a ha => ⟨_, (h.live ring a (hsplit ▸ mem_append_left rest ha)).1, rfl, rfl⟩
  obtain ⟨s', herase, he⟩ := erase_ok passed (s.setQueue ring rest) hlive honce_passed
  have hqueue : s'.queue = update s.queue ring rest := by rw [he.frame]; rfl
  have hrings : s'.rings = s.rings := by rw [he.frame]; rfl
  have hnext : s'.nextId = s.nextId := by rw [he.frame]; rfl
  -- a task that stays queued is none of those passed
  have hstay : ∀ r a, .task a ∈ s'.queue r → .task a ∈ s.queue r ∧ .task a ∉ passed := by
    intro r a ha
    rw [hqueue] at ha
    by_cases hr : r = ring
    · subst hr
      rw [update_self] at ha
      exact ⟨hsplit ▸ mem_append_right passed ha, fun hmem => hapart _ hmem _ ha a rfl rfl⟩
    rw [update_of_ne hr] at ha
    refine ⟨ha, fun hmem => hr ?_⟩
    have hhere := (h.live ring a (hsplit ▸ mem_append_left rest hmem)).1
    rw [(h.live r a ha).1] at hhere
    exact (Task.mk.inj (Option.some.inj hhere)).2.1
  refine ⟨s', ?_, ⟨?_, hrings.symm ▸ h.rings, ?_, ?_, ?_⟩, hqueue, hrings, hnext,
    by rw [he.frame]; rfl, ?_⟩
  · rw [VirtioGpuTimelines.pollLocked, if_neg (not_not.mpr hring)]
    rw [hscan, ok_bind]
    dsimp only
    rw [herase]
    rfl
  · rw [he.bound, hnext]
    exact h.bound
  · intro r a ha
    obtain ⟨hold, hnot⟩ := hstay r a ha
    rw [(he.other a hnot).1, (he.other a hnot).2]
    exact h.live r a hold
  · intro r
    rw [hqueue]
    by_cases hr : r = ring
    · subst hr
      rwa [update_self]
    · rw [update_of_ne hr]
      exact h.once r
  · intro r hr
    rw [hrings] at hr
    have hne : r ≠ ring := fun heq => hr (heq ▸ hring)
    rw [hqueue, update_of_ne hne]
    exact h.known r hr
  · intro a hheld ha hgone
    rw [hqueue, update_self] at hgone
    have hmem : .task a ∈ passed :=
      (mem_append.mp (hsplit.symm ▸ ha)).resolve_right hgone
    rw [he.held a hmem hheld]
    change (s.tasks.cell a).map _ = _
    rw [(h.live ring a ha).1]
    rfl

structure PolledAll (done : ℕ → Bool) (rings : List Ring) (s s' : VirtioGpuTimelines κ) : Prop where
  sound : s'.Sound done none
  queue : ∀ ring, s'.queue ring =
    if ring ∈ rings then (s.queue ring).dropWhile (TimelineItem.passes done) else s.queue ring
  rings : s'.rings = s.rings
  nextId : s'.nextId = s.nextId
  withAsyncCallback : s'.withAsyncCallback = s.withAsyncCallback

theorem Sound.pollRings (rings : List Ring) : ∀ {s : VirtioGpuTimelines κ}, s.Sound done none →
    (∀ ring ∈ rings, ring ∈ s.rings) → rings.Nodup →
    ∃ s' log, s.pollRings rings = .ok (s', log) ∧ PolledAll done rings s s' ∧
      ∀ ring, logOn ring log = if ring ∈ rings then due done (s.pending ring) else [] := by
  induction rings with
  | nil =>
    exact fun {s} h _ _ => ⟨s, [], rfl, ⟨h, fun ring => by simp, rfl, rfl, rfl⟩, fun ring => rfl⟩
  | cons ring rings ih =>
    intro s h hrings hnodup
    obtain ⟨hring, hnodup⟩ := nodup_cons.mp hnodup
    obtain ⟨s1, hpoll, h1⟩ := h.pollLocked (hrings ring mem_cons_self)
    have hrings1 : ∀ r ∈ rings, r ∈ s1.rings := fun r hr =>
      h1.rings.symm ▸ hrings r (mem_cons_of_mem ring hr)
    obtain ⟨s', log, hpoll', h', hlog⟩ := ih h1.sound hrings1 hnodup
    refine ⟨s', (due done (s.pending ring)).map (ring, ·) ++ log, ?_, ⟨h'.sound, ?_,
      h'.rings.trans h1.rings, h'.nextId.trans h1.nextId,
      h'.withAsyncCallback.trans h1.withAsyncCallback⟩, ?_⟩
    · rw [VirtioGpuTimelines.pollRings, hpoll, ok_bind]
      dsimp only
      rw [hpoll']
      rfl
    · intro r
      rw [h'.queue, h1.queue]
      by_cases hr : r = ring
      · subst hr
        rw [if_neg hring, if_pos mem_cons_self, update_self]
      · rw [update_of_ne hr]
        simp only [mem_cons, hr, false_or]
    · intro r
      rw [logOn_append, hlog]
      by_cases hr : r = ring
      · subst hr
        rw [logOn_map_self, if_neg hring, if_pos mem_cons_self, append_nil]
      · have hpending : s1.pending r = s.pending r := by
          rw [pending, h1.queue, update_of_ne hr, pending]
        rw [logOn_map_of_ne (Ne.symm hr), hpending, nil_append]
        simp only [mem_cons, hr, false_or]

theorem visit_spec {rings : List Ring} (h : rings.Nodup) (preference : List Ring) :
    (visit preference rings).Nodup ∧ ∀ ring, ring ∈ visit preference rings ↔ ring ∈ rings := by
  constructor
  · refine nodup_append.mpr ⟨(nodup_dedup _).filter _, h.filter _, ?_⟩
    rintro a ha b hb rfl
    simp only [mem_filter, mem_dedup, decide_eq_true_eq] at ha hb
    exact hb.2 ha.1
  · intro ring
    simp only [visit, mem_append, mem_filter, mem_dedup, decide_eq_true_eq]
    tauto

theorem Sound.poll (h : s.Sound done none) (hsync : s.withAsyncCallback = false)
    (preference : List Ring) :
    ∃ s' log, s.poll preference = .ok (s', log) ∧ PolledAll done s.rings s s' ∧
      ∀ ring, logOn ring log = due done (s.pending ring) := by
  obtain ⟨hnodup, hmem⟩ := visit_spec h.rings preference
  obtain ⟨s', log, hpoll, h', hlog⟩ := h.pollRings _ (fun ring hr => (hmem ring).mp hr) hnodup
  refine ⟨s', log, ?_, ⟨h'.sound, fun ring => ?_, h'.rings, h'.nextId, h'.withAsyncCallback⟩,
    fun ring => ?_⟩
  · rw [VirtioGpuTimelines.poll, if_neg (by simp [hsync])]
    exact hpoll
  · simpa only [hmem] using h'.queue ring
  · rw [hlog]
    by_cases hr : ring ∈ s.rings
    · rw [if_pos ((hmem ring).mpr hr)]
    · rw [if_neg fun hv => hr ((hmem ring).mp hv), pending, h.known ring hr]
      rfl

/-! ### The other calls -/

theorem Sound.release (h : s.Sound done (some a))
    (ha : (∃ ring, .task a ∈ s.queue ring) ∨ ∃ t, s.tasks.cell a = some t ∧ t.id = a ∧ t.refs = 1) :
    ∃ s', s.release a = .ok s' ∧ s'.Sound done none ∧
      s' = { s with tasks := s'.tasks, taskIdToTask := s'.taskIdToTask } := by
  have hothers : ∀ ring b, .task b ∈ s.queue ring → b ≠ a →
      s.tasks.cell b = some ⟨b, ring, done b, owners none b⟩ := by
    intro ring b hb hba
    have hlive := (h.live ring b hb).1
    rwa [owners, if_neg (by simpa using hba.symm)] at hlive
  by_cases hqueued : ∃ ring, .task a ∈ s.queue ring
  · -- the queue still owns the task
    obtain ⟨ring, hqueued⟩ := hqueued
    have hlive := (h.live ring a hqueued).1
    rw [owners, if_pos rfl] at hlive
    refine ⟨_, release_shared hlive rfl, ⟨?_, h.rings, ?_, h.once, h.known⟩, rfl⟩
    · exact (put_bound hlive).trans h.bound
    · intro r b hb
      refine ⟨?_, (h.live r b hb).2⟩
      by_cases hba : b = a
      · subst hba
        have hsame : ring = r := by
          have hlive' := (h.live r b hb).1
          rw [hlive] at hlive'
          exact (Task.mk.inj (Option.some.inj hlive')).2.1
        rw [put_cell_self, hsame]
        rfl
      · rw [put_cell_of_ne hba]
        exact hothers r b hb hba
  · obtain ⟨t, ht, hid, hrefs⟩ := ha.resolve_left hqueued
    refine ⟨_, release_last ht hrefs, ⟨?_, h.rings, ?_, h.once, h.known⟩, rfl⟩
    · exact (put_bound ht).trans h.bound
    · intro r b hb
      have hba : b ≠ a := fun hba => hqueued ⟨r, hba ▸ hb⟩
      refine ⟨?_, ?_⟩
      · rw [put_cell_of_ne hba]
        exact hothers r b hb hba
      · change update s.taskIdToTask t.id none b = _
        rw [update_of_ne (by rwa [hid])]
        exact (h.live r b hb).2

theorem Sound.enqueue_eq (h : s.Sound done held) (ring : Ring) (item : TimelineItem κ) :
    (s.enqueue ring item).queue = update s.queue ring (s.queue ring ++ [item]) ∧
      (s.enqueue ring item).rings = (if ring ∈ s.rings then s.rings else s.rings ++ [ring]) := by
  unfold enqueue getOrCreateTimelineLocked
  by_cases hring : ring ∈ s.rings
  · rw [if_pos hring, if_pos hring]
    exact ⟨rfl, rfl⟩
  · rw [if_neg hring, if_neg hring, h.known ring hring]
    refine ⟨?_, rfl⟩
    simp only [setQueue, update_self, update_idem]

theorem enqueue_frame (s : VirtioGpuTimelines κ) (ring : Ring) (item : TimelineItem κ) :
    s.enqueue ring item =
      { s with rings := (s.enqueue ring item).rings, queue := (s.enqueue ring item).queue } := by
  unfold enqueue getOrCreateTimelineLocked
  split_ifs <;> rfl

theorem Sound.enqueue (h : s.Sound done held) (ring : Ring) (item : TimelineItem κ)
    (hlive : ∀ a, item = .task a →
      s.tasks.cell a = some ⟨a, ring, done a, owners held a⟩ ∧ s.taskIdToTask a = some a)
    (hnew : ∀ a r, item = .task a → .task a ∉ s.queue r) :
    (s.enqueue ring item).Sound done held ∧ ring ∈ (s.enqueue ring item).rings := by
  obtain ⟨hqueue, hrings⟩ := h.enqueue_eq ring item
  have hframe := enqueue_frame s ring item
  have hmem : ∀ r, r ∈ (s.enqueue ring item).rings ↔ r ∈ s.rings ∨ r = ring := by
    intro r
    rw [hrings]
    split_ifs with hring
    · refine ⟨.inl, ?_⟩
      rintro (hr | rfl)
      · exact hr
      · exact hring
    · simp
  refine ⟨⟨by rw [hframe]; exact h.bound, ?_, ?_, ?_, ?_⟩, (hmem ring).mpr (.inr rfl)⟩
  · rw [hrings]
    split_ifs with hring
    · exact h.rings
    · exact h.rings.append (nodup_singleton ring) (by simpa using hring)
  · intro r a ha
    rw [hqueue] at ha
    have hcell : (s.enqueue ring item).tasks = s.tasks ∧
        (s.enqueue ring item).taskIdToTask = s.taskIdToTask := by rw [hframe]; exact ⟨rfl, rfl⟩
    rw [hcell.1, hcell.2]
    by_cases hr : r = ring
    · subst hr
      rw [update_self] at ha
      rcases mem_append.mp ha with ha | ha
      · exact h.live r a ha
      · exact hlive a (mem_singleton.mp ha).symm
    · rw [update_of_ne hr] at ha
      exact h.live r a ha
  · intro r
    rw [hqueue]
    by_cases hr : r = ring
    · subst hr
      rw [update_self]
      refine pairwise_append.mpr ⟨h.once r, pairwise_singleton _ _, ?_⟩
      rintro i hi j hj a rfl rfl
      exact hnew a r (mem_singleton.mp hj).symm hi
    · rw [update_of_ne hr]
      exact h.once r
  · intro r hr
    obtain ⟨hr, hne⟩ := not_or.mp fun hor => hr ((hmem r).mpr hor)
    rw [hqueue, update_of_ne hne]
    exact h.known r hr

theorem Sound.pending_enqueue (h : s.Sound done held) (ring r : Ring) (item : TimelineItem κ) :
    (s.enqueue ring item).pending r = s.pending r ++ (if ring = r then [item.entry] else []) := by
  rw [pending, (h.enqueue_eq ring item).1, pending]
  by_cases hr : r = ring
  · subst hr
    rw [update_self, if_pos rfl, map_append]
    rfl
  · rw [update_of_ne hr, if_neg (Ne.symm hr), append_nil]

theorem Sound.enqueueTask (h : s.Sound done none) (ring : Ring) (hdone : done s.nextId = false) :
    (s.enqueueTask ring).1.Sound done none ∧ (s.enqueueTask ring).1.nextId = s.nextId + 1 ∧
      (s.enqueueTask ring).1.withAsyncCallback = s.withAsyncCallback ∧
      ∀ r, (s.enqueueTask ring).1.pending r =
        s.pending r ++ (if ring = r then [.wait s.nextId] else []) := by
  -- the timelines with the new object, before it is queued
  let s0 : VirtioGpuTimelines κ := { s with
    nextId := s.nextId + 1
    tasks := s.tasks.put s.nextId (some ⟨s.nextId, ring, false, 1⟩)
    taskIdToTask := update s.taskIdToTask s.nextId (some s.nextId) }
  have hs0 : (s.enqueueTask ring).1 = s0.enqueue ring (.task s.nextId) := by
    unfold VirtioGpuTimelines.enqueueTask Store.alloc
    simp only [h.bound]
    rfl
  have hold : ∀ r a, .task a ∈ s.queue r → a ≠ s.nextId := by
    rintro r a ha rfl
    have hlt := lt_bound (h.live r _ ha).1
    rw [h.bound] at hlt
    exact lt_irrefl _ hlt
  have hsound0 : s0.Sound done none := by
    refine ⟨?_, h.rings, fun r a ha => ?_, h.once, h.known⟩
    · change max s.tasks.bound (s.nextId + 1) = s.nextId + 1
      rw [h.bound]
      exact max_eq_right (Nat.le_succ _)
    · have hne := hold r a ha
      refine ⟨(put_cell_of_ne hne).trans (h.live r a ha).1, ?_⟩
      exact (update_of_ne hne _ _).trans (h.live r a ha).2
  rw [hs0]
  refine ⟨(hsound0.enqueue ring _ ?_ ?_).1, by rw [enqueue_frame], by rw [enqueue_frame],
    fun r => hsound0.pending_enqueue ring r _⟩
  · rintro a ⟨⟩
    refine ⟨(put_cell_self _ _ _).trans ?_, update_self _ _ _⟩
    rw [hdone]
    rfl
  · rintro a r ⟨⟩ ha
    exact hold r _ ha rfl

theorem Sound.complete (h : s.Sound done none) (hk : .task k ∈ s.queue ring) :
    ({ s with tasks := s.tasks.put k (some ⟨k, ring, true, 2⟩) } : VirtioGpuTimelines κ).Sound
      (fun j => done j || decide (k = j)) (some k) := by
  have hlive := (h.live ring k hk).1
  refine ⟨(put_bound hlive).trans h.bound, h.rings, fun r a ha => ?_, h.once, h.known⟩
  obtain ⟨hcell, htable⟩ := h.live r a ha
  refine ⟨?_, htable⟩
  by_cases hka : k = a
  · subst hka
    have hring : ring = r := by
      rw [hlive] at hcell
      exact (Task.mk.inj (Option.some.inj hcell)).2.1
    rw [hring]
    simp [owners]
  · rw [put_cell_of_ne (Ne.symm hka), hcell]
    simp [owners, hka]

/-- What the end of a call does to the timelines: it polls the ring, or nothing. -/
structure Settled (done : ℕ → Bool) (held : Option ℕ) (ring : Ring)
    (s s' : VirtioGpuTimelines κ) : Prop where
  sound : s'.Sound done held
  queue : s'.queue = if s.withAsyncCallback then
    Function.update s.queue ring ((s.queue ring).dropWhile (TimelineItem.passes done)) else s.queue
  rings : s'.rings = s.rings
  nextId : s'.nextId = s.nextId
  withAsyncCallback : s'.withAsyncCallback = s.withAsyncCallback

/-- The callbacks that run at the end of a call. -/
def settledLog (s : VirtioGpuTimelines κ) (done : ℕ → Bool) (ring : Ring) : Log κ :=
  if s.withAsyncCallback then (due done (s.pending ring)).map (ring, ·) else []

theorem Sound.pollIfAsync (h : s.Sound done held) (hring : ring ∈ s.rings) :
    ∃ s', s.pollIfAsync ring = .ok (s', s.settledLog done ring) ∧ Settled done held ring s s' ∧
      ∀ a, held = some a → .task a ∈ s.queue ring → (∃ r, .task a ∈ s'.queue r) ∨
        ∃ t, s'.tasks.cell a = some t ∧ t.id = a ∧ t.refs = 1 := by
  unfold VirtioGpuTimelines.pollIfAsync settledLog
  cases hasync : s.withAsyncCallback with
  | false =>
    refine ⟨s, rfl, ⟨h, ?_, rfl, rfl, rfl⟩, fun a _ ha => .inl ⟨ring, ha⟩⟩
    rw [hasync, if_neg Bool.false_ne_true]
  | true =>
    obtain ⟨s', hpoll, h'⟩ := h.pollLocked hring
    refine ⟨s', hpoll, ⟨h'.sound, ?_, h'.rings, h'.nextId, h'.withAsyncCallback⟩, ?_⟩
    · rw [hasync, if_pos rfl]
      exact h'.queue
    · intro a hheld ha
      by_cases hstays : .task a ∈ s'.queue ring
      · exact .inl ⟨ring, hstays⟩
      · exact .inr ⟨_, h'.held a hheld ha hstays, rfl, rfl⟩

theorem Sound.notifyTaskCompletion (h : s.Sound done none) (hk : .task k ∈ s.queue ring)
    (hnot : done k = false) : ∃ s', s.notifyTaskCompletion k =
        .ok (s', s.settledLog (fun j => done j || decide (k = j)) ring) ∧
      Settled (fun j => done j || decide (k = j)) none ring s s' := by
  obtain ⟨hcell, htable⟩ := h.live ring k hk
  have hring : ring ∈ s.rings := by
    by_contra hring
    rw [h.known ring hring] at hk
    cases hk
  obtain ⟨s1, hpoll, h1, hheld⟩ := (h.complete hk).pollIfAsync hring
  obtain ⟨s', hrelease, hs', hframe⟩ := h1.sound.release (hheld k rfl hk)
  refine ⟨s', ?_, hs', ?_, ?_, ?_, ?_⟩
  · unfold VirtioGpuTimelines.notifyTaskCompletion
    simp only [htable, hcell, ne_eq, not_true_eq_false, if_false, hnot, Bool.false_eq_true,
      modify_of hcell, ok_bind, owners, reduceCtorEq]
    rw [hpoll, ok_bind]
    rw [hrelease]
    rfl
  · rw [hframe]
    exact h1.queue
  · rw [hframe]
    exact h1.rings
  · rw [hframe]
    exact h1.nextId
  · rw [hframe]
    exact h1.withAsyncCallback

end VirtioGpuTimelines

end AndroidEmu.VirtioGpu
