import AndroidEmu.Pipe.Snapshot

/-!
# Runs of the pipe device

Next to the device we keep which wake flags the host has signalled and the guest has not been told
about. They are kept as long as the pipe is on the wanted list with the flag. Opening a pipe with
the largest id breaks the table. It is the only event that can.
-/

namespace AndroidEmu.Pipe

open CS PipeDevice

/-! ### Promises -/

/-- The event is the host signalling flag `k` of the pipe with an id. -/
def Signals (d : PipeDevice) (e : Event) (id k : ℕ) : Bool :=
  match e with
  | .signalWake r flags => (d.pipeAt r).any fun p => p.id = id && hasFlag flags k
  | .closeFromHost r =>
    (d.pipeAt r).any fun p => !p.closed && (p.id = id && hasFlag wakeClosed k)
  | _ => false

/-- The event reports flag `k` of the pipe with an id to the guest, or closes the pipe. A
load that fails has closed all pipes. -/
def Releases (d : PipeDevice) (e : Event) (out : Output) (id k : ℕ) : Bool :=
  match e, out with
  | .getSignalled, .signalled entries => entries.any fun x => x.1 = id && hasFlag x.2 k
  | .writeCmd i _ q, _ =>
    id = wrapNat 32 i && (d.lookup id).isSome && q.commandBuffer.cmd = 2
  | .readVersion, _ => true
  | .saveThenLoad _ _, .loaded ok => !ok
  | _, _ => false

/-- A device, and for each id the flags signalled and not yet reported. -/
structure Tracked where
  dev : PipeDevice
  pending : ℕ → ℕ → Bool

def Tracked.step (s : Tracked) (e : Event) : Checked (Tracked × Output) := do
  let (d, out) ← s.dev.step e
  return (⟨d, fun id k =>
    s.pending id k && !Releases s.dev e out id k || Signals s.dev e id k⟩, out)

/-! ### Conditions on events -/

/-- No pipe is opened with the largest id, and the host calls are on open pipes. -/
def Event.Proper (d : PipeDevice) : Event → Prop
  | .writeCmd id o _ => o.Opens → wrapNat 32 id ≠ 2 ^ 32 - 1
  | .signalWake r _ => ∃ i, d.lookup i = some r
  | .closeFromHost r => ∃ i, d.lookup i = some r
  | _ => True

/-- The guest has set up the open command before it opens a pipe; commands are not
transfers; and the buffer for wanted pipes can be mapped again after a load. -/
def Event.Regular (d : PipeDevice) : Event → Prop
  | .writeCmd id _ q =>
    match d.lookup (wrapNat 32 id) with
    | none => d.openCommand = true
    | some _ => ¬ q.MayFault
  | .saveThenLoad _ q => q.mapsSignalled = true
  | _ => True

/-- The buffer for wanted pipes is mapped unless it is empty. -/
def BufferOk (d : PipeDevice) : Prop :=
  d.signalledPipeBufferSize = 0 ∨ d.signalledPipeBuffer = true

/-- How an event can stop the emulator: never by an access outside the table or to a freed pipe, and
a regular event only if memory is refused or a guest buffer cannot be mapped. -/
def Stops (regular : Prop) (f : Fault) : Prop :=
  f ≠ .outOfBounds ∧ f ≠ .useAfterFree ∧ (regular → f = .outOfMemory ∨ f = .exit)

/-! ### One event -/

structure Follows (d : PipeDevice) (xs : List ℕ) (e : Event) (p : PipeDevice × Output)
    (ys : List ℕ) : Prop where
  wf : p.1.Wf ys
  irq : (xs ≠ [] → d.irq = true) → ys ≠ [] → p.1.irq = true
  buffer : e.Regular d → BufferOk d → BufferOk p.1
  kept : ∀ id k, Wants d xs id k → Releases d e p.2 id k = true ∨ Wants p.1 ys id k
  signalled : ∀ id k, Signals d e id k = true → Wants p.1 ys id k

/-- The event leaves a well-formed device or stops as it may. -/
abbrev Advances (d : PipeDevice) (xs : List ℕ) (e : Event) : Prop :=
  (d.step e).Ensures (fun p => ∃ ys, Follows d xs e p ys) (Stops (e.Regular d ∧ BufferOk d))

theorem bufferOk_of_front {d d' : PipeDevice} (h : d'.front = d.front) (hok : BufferOk d) :
    BufferOk d' := by
  have hsize : d'.signalledPipeBufferSize = d.signalledPipeBufferSize :=
    congrArg (fun f => f.2.2.1) h
  have hmapped : d'.signalledPipeBuffer = d.signalledPipeBuffer := congrArg (fun f => f.2.2.2.1) h
  rwa [BufferOk, hsize, hmapped]

variable {d : PipeDevice} {xs : List ℕ}

variable {e : Event}

theorem Follows.of_unmoved {d' : PipeDevice} {out : Output} (h : Unmoved d d' xs)
    (hsignals : ∀ id k, Signals d e id k = false) : Follows d xs e (d', out) xs where
  wf := h.wf
  irq hirq hne := (congrArg Prod.fst h.front_eq).trans (hirq hne)
  buffer _ hok := bufferOk_of_front h.front_eq hok
  kept id k hw := .inr (h.wants id k hw)
  signalled id k hs := by simp [hsignals] at hs

variable {i r id : ℕ}

theorem Follows.of_woken {w : WantedList} {flags : UInt8}
    (hwf : Wf { d with wanted := w, irq := true } (xs.insert r))
    (hkeep : ∀ id k, Wants d xs id k → Wants { d with wanted := w, irq := true } (xs.insert r) id k)
    (hnew : ∀ k, hasFlag flags k = true →
      Wants { d with wanted := w, irq := true } (xs.insert r) i k)
    (hsignals : ∀ id k, Signals d e id k = true → id = i ∧ hasFlag flags k = true) :
    Follows d xs e ({ d with wanted := w, irq := true }, .nothing) (xs.insert r) where
  wf := hwf
  irq _ _ := rfl
  buffer _ hok := hok
  kept id k hw := .inr (hkeep id k hw)
  signalled id k hs := by
    obtain ⟨rfl, hflag⟩ := hsignals id k hs
    exact hnew k hflag

section

variable (h : d.Wf xs)

include h

theorem signalWake_advances {flags : UInt8}
    (hproper : (Event.signalWake r flags).Proper d) : Advances d xs (.signalWake r flags) := by
  obtain ⟨i, hi⟩ := hproper
  obtain ⟨p, hp, hid⟩ := h.table.found hi
  obtain ⟨w, hstep, hwf, hkeep, hnew⟩ := h.signalWake hi flags
  rw [Advances, step, hstep]
  refine ⟨xs.insert r, .of_woken hwf hkeep hnew fun id k hs => ?_⟩
  simp only [Signals, hp, Option.any_some, Bool.and_eq_true, decide_eq_true_eq] at hs
  exact ⟨hs.1.symm.trans hid, hs.2⟩

theorem closeFromHost_advances
    (hproper : (Event.closeFromHost r).Proper d) : Advances d xs (.closeFromHost r) := by
  obtain ⟨i, hi⟩ := hproper
  obtain ⟨p, hp, hid⟩ := h.table.found hi
  rw [Advances, step]
  rcases h.closeFromHost hi with ⟨hclosed, hstep⟩ | ⟨hclosed, w, hstep, hwf, hkeep, hnew⟩
  · rw [hstep]
    refine ⟨xs, .of_unmoved h.unmoved fun id k => ?_⟩
    rw [hp] at hclosed
    simp [Signals, hp, show p.closed = true from Option.some.inj hclosed]
  · rw [hstep]
    refine ⟨xs.insert r, .of_woken hwf hkeep hnew fun id k hs => ?_⟩
    simp only [Signals, hp, Option.any_some, Bool.and_eq_true, decide_eq_true_eq] at hs
    exact ⟨hs.2.1.symm.trans hid, hs.2.2⟩

theorem getSignalled_advances : Advances d xs .getSignalled := by
  rw [Advances, step]
  by_cases hbuffer : d.signalledPipeBufferSize = 0 ∨ xs = [] ∨ d.signalledPipeBuffer = true
  · obtain ⟨w, irq, entries, hstep, hwf, hirq, hwants⟩ := h.getSignalled hbuffer
    rw [hstep]
    refine ⟨_, hwf, fun hold hne => ?_, fun _ hok => hok, fun id k hw => ?_, by simp [Signals]⟩
    · refine (hirq hne).trans (hold ?_)
      rintro rfl
      exact hne List.drop_nil
    · refine (hwants id k hw).imp_left ?_
      rintro ⟨f, hf, hflag⟩
      exact List.any_eq_true.mpr ⟨(id, f), hf, by simp [hflag]⟩
  · -- no buffer and something to report
    push Not at hbuffer
    obtain ⟨hsize, hne, hmapped⟩ := hbuffer
    obtain ⟨r, rs, rfl⟩ := List.exists_cons_of_ne_nil hne
    rw [h.getSignalled_unmapped hsize (by simpa using hmapped)]
    refine ⟨by simp, by simp, fun hregular => ?_⟩
    rcases hregular.2 with hzero | hmapped'
    · exact absurd hzero hsize
    · exact absurd hmapped' hmapped

theorem readVersion_advances : Advances d xs .readVersion := by
  obtain ⟨d', hstep, hwf, hirq, hsize, hmapped⟩ := h.readVersion
  rw [Advances, step, hstep]
  refine ⟨[], hwf, fun _ hne => absurd rfl hne, fun _ hok => ?_, fun _ _ _ => .inl rfl,
    by simp [Signals]⟩
  rwa [BufferOk, hsize, hmapped]

theorem saveThenLoad_advances (fresh : Option Heap) (q : LoadRequest) :
    Advances d xs (.saveThenLoad fresh q) := by
  rw [Advances, step]
  have hload := h.saveThenLoad fresh q
  generalize d.saveThenLoad fresh q = x at hload
  rcases x with f | ⟨d', ok⟩
  · rcases hload with rfl | rfl <;> simp [Checked.Ensures, Stops]
  obtain ⟨ys, hwf, hirq, hbuffer, hwants⟩ := hload
  refine ⟨ys, hwf, fun _ => hirq, fun hregular _ => .inr (hbuffer hregular), fun id k hw => ?_,
    by simp [Signals]⟩
  cases ok with
  | false => exact .inl rfl
  | true => exact .inr (hwants rfl id k hw)

omit h in
theorem writeCmd_of_none (h : d.TableOk) (hnone : d.lookup i = none) (o : OpenRequest)
    (q : CommandRequest) : d.writeCmd i o q = do
      let (d, status) ← d.doOpenClose i o
      return (d, { status }) := by
  rw [writeCmd]
  split_ifs with hi
  · rw [h.slot hi, hnone, Checked.ok_bind]
  · rfl

omit h in
theorem writeCmd_of_some (h : d.TableOk) (hr : d.lookup i = some r) (o : OpenRequest)
    (q : CommandRequest) : d.writeCmd i o q = d.doCommand r q := by
  have hi := lt_capacity_of_lookup hr
  rw [writeCmd, if_pos hi, h.slot hi, hr, Checked.ok_bind]

theorem open_advances {o : OpenRequest} (q : CommandRequest)
    (hproper : (Event.writeCmd id o q).Proper d) (hnone : d.lookup (wrapNat 32 id) = none) :
    Advances d xs (.writeCmd id o q) := by
  have hlt : wrapNat 32 id < 2 ^ 32 := Nat.mod_lt _ (by norm_num)
  have hresult := h.doOpenClose hnone (q := o) fun hopens => by
    have := hproper hopens
    omega
  rw [Advances, step, writeCmd_of_none h.table hnone]
  generalize d.doOpenClose (wrapNat 32 id) o = x at hresult
  cases hresult with
  | nullPointer hopen =>
    refine ⟨by simp, by simp, fun hregular => ?_⟩
    have := hregular.1
    simp [Event.Regular, hnone, hopen] at this
  | unchanged _ => exact ⟨xs, .of_unmoved h.unmoved fun _ _ => rfl⟩
  | placed hplaced =>
    cases hplaced with
    | outOfMemory => exact ⟨by simp, by simp, fun _ => .inl rfl⟩
    | refused _ hwf hrefused hfront =>
      refine ⟨xs, .of_unmoved ⟨hwf, hfront, hrefused.lookup_eq, fun j k hw => ?_⟩ fun _ _ => rfl⟩
      rwa [Wants, hrefused.lookup_eq, hrefused.pipeAt_eq]
    | opened hwf hopened hfront =>
      refine ⟨xs, hwf, fun hirq hne => (congrArg Prod.fst hfront).trans (hirq hne),
        fun _ => bufferOk_of_front hfront, fun j k hw => .inr ?_, by simp [Signals]⟩
      obtain ⟨r, p, hr, hp, hmem, hflag⟩ := hw
      have hne : j ≠ wrapNat 32 id := by
        rintro rfl
        simp [hnone] at hr
      refine ⟨r, p, (hopened.lookup_eq j hne).trans hr, ?_, hmem, hflag⟩
      exact (hopened.pipeAt_eq r (by simp [hp])).trans hp

theorem command_advances (o : OpenRequest) (q : CommandRequest)
    (hr : d.lookup (wrapNat 32 id) = some r) : Advances d xs (.writeCmd id o q) := by
  have hresult := h.doCommand hr q
  rw [Advances, step, writeCmd_of_some h.table hr]
  generalize d.doCommand r q = x at hresult
  cases hresult with
  | failed hf hq =>
    refine ⟨by rcases hf with rfl | rfl <;> simp, by rcases hf with rfl | rfl <;> simp, ?_⟩
    intro hregular
    have := hregular.1
    simp [Event.Regular, hr, hq] at this
  | closed hcmd hwf hclosed =>
    refine ⟨xs.erase r, hwf, fun hirq hne => ?_, fun _ => bufferOk_of_front hclosed.front_eq,
      fun j k hw => ?_, by simp [Signals]⟩
    · refine (congrArg Prod.fst hclosed.front_eq).trans (hirq ?_)
      rintro rfl
      exact hne rfl
    · by_cases hj : j = wrapNat 32 id
      · exact .inl (by simp [Releases, hj, hr, hcmd])
      · exact .inr (h.wants_of_closed hr hclosed hw hj)
  | unmoved hcmd hunmoved => exact ⟨xs, .of_unmoved hunmoved fun _ _ => rfl⟩

theorem front_advances (d' : PipeDevice)
    (hstep : d.step e = .ok (d', .nothing)) (hpipes : d'.pipes = d.pipes)
    (hcapacity : d'.pipesCapacity = d.pipesCapacity) (hwanted : d'.wanted = d.wanted)
    (hirq : d'.irq = d.irq)
    (hbuffer : d'.signalledPipeBuffer = true ∨
      d'.signalledPipeBufferSize = d.signalledPipeBufferSize ∧
        d'.signalledPipeBuffer = d.signalledPipeBuffer)
    (hsignals : ∀ id k, Signals d e id k = false) : Advances d xs e := by
  rw [Advances, hstep]
  have hlookup : d'.lookup = d.lookup := by
    funext j
    rw [lookup, lookup, hpipes, hcapacity]
  refine ⟨xs, ⟨h.table.congr hpipes hcapacity (by rw [hwanted]), by rw [hwanted]; exact h.holds⟩,
    fun hold hne => hirq.trans (hold hne), fun _ hok => ?_, fun id k hw => .inr ?_, ?_⟩
  · rcases hbuffer with hmapped | ⟨hsize, hmapped⟩
    · exact .inr hmapped
    · rwa [BufferOk, hsize, hmapped]
  · obtain ⟨r, p, hr, hp, hmem, hflag⟩ := hw
    exact ⟨r, p, by rw [hlookup, hr], by rw [pipeAt, hwanted, ← hp], hmem, hflag⟩
  · intro id k hs
    simp [hsignals] at hs

theorem event_advances (hproper : e.Proper d) : Advances d xs e := by
  cases e with
  | writeCmd id o q =>
    cases hr : d.lookup (wrapNat 32 id) with
    | none => exact open_advances h q hproper hr
    | some r => exact command_advances h o q hr
  | writeSignalBufferHigh value =>
    exact front_advances h { d with signalledPipeBufferAddr := value <<< 32 } rfl rfl rfl rfl rfl
      (.inr ⟨rfl, rfl⟩) fun _ _ => rfl
  | writeSignalBuffer value =>
    exact front_advances h
      { d with signalledPipeBufferAddr := d.signalledPipeBufferAddr ||| value } rfl rfl rfl rfl rfl
      (.inr ⟨rfl, rfl⟩) fun _ _ => rfl
  | writeSignalBufferCount count mapped =>
    cases mapped with
    | false => exact ⟨by simp, by simp, fun _ => .inr rfl⟩
    | true =>
      exact front_advances h
        { d with signalledPipeBufferSize := wrapNat 32 count, signalledPipeBuffer := true }
        rfl rfl rfl rfl rfl (.inl rfl) fun _ _ => rfl
  | writeOpenBufferHigh value =>
    exact front_advances h { d with openCommandAddr := value <<< 32 } rfl rfl rfl rfl rfl
      (.inr ⟨rfl, rfl⟩) fun _ _ => rfl
  | writeOpenBuffer value mapped =>
    cases mapped with
    | false => exact ⟨by simp, by simp, fun _ => .inr rfl⟩
    | true =>
      exact front_advances h
        { d with openCommandAddr := d.openCommandAddr ||| value, openCommand := true }
        rfl rfl rfl rfl rfl (.inr ⟨rfl, rfl⟩) fun _ _ => rfl
  | getSignalled => exact getSignalled_advances h
  | readVersion => exact readVersion_advances h
  | signalWake r flags => exact signalWake_advances h hproper
  | closeFromHost r => exact closeFromHost_advances h hproper
  | saveThenLoad fresh q => exact saveThenLoad_advances h fresh q

end

/-! ### The table of pipes -/

def PipeDevice.runFromRealize (heap : Heap) (es : List Event) : Checked PipeDevice := do
  let d ← realize heap
  (run PipeDevice.step d es).2

/-- All events of the run are proper in the state they meet. -/
def ProperRun (heap : Heap) (es : List Event) : Prop :=
  ∀ d, realize heap = .ok d → Meets PipeDevice.step (fun d e => e.Proper d) d es

/-- The pipes of the table are the same. It may have grown if it was too small for the id and the
service then refused the pipe. -/
structure TableKept (d d' : PipeDevice) (i : ℕ) (o : OpenRequest) : Prop where
  lookup_eq : d'.lookup = d.lookup
  pipeAt_eq : d'.pipeAt = d.pipeAt
  same : i < d.pipesCapacity ∨ o.hostPipe ≠ none →
    d'.pipes = d.pipes ∧ d'.pipesCapacity = d.pipesCapacity

/-- Opening a pipe reports an error and keeps the table, or puts a new pipe into it and
leaves the others. -/
def OpensWell (d : PipeDevice) (i : ℕ) (o : OpenRequest) (p : PipeDevice × Output) : Prop :=
  (∃ s, p.2 = .reply { status := some s } ∧ s < 0 ∧ TableKept d p.1 i o) ∨
    p.2 = .reply { status := some 0 } ∧ Opened d p.1 i

theorem opensWell_of_wf (h : d.Wf xs) {o : OpenRequest} (q : CommandRequest)
    (hnone : d.lookup (wrapNat 32 id) = none) (hopens : o.Opens)
    (hid : wrapNat 32 id ≠ 2 ^ 32 - 1) :
    (d.step (.writeCmd id o q)).Ensures (OpensWell d (wrapNat 32 id) o)
      (fun f => f = .outOfMemory ∨ f = .nullPointer ∧ d.openCommand = false) := by
  have hlt : wrapNat 32 id < 2 ^ 32 := Nat.mod_lt _ (by norm_num)
  have hresult := h.doOpenClose hnone (q := o) fun _ => by omega
  rw [step, writeCmd_of_none h.table hnone]
  generalize d.doOpenClose (wrapNat 32 id) o = x at hresult
  cases hresult with
  | nullPointer hopen => exact .inr ⟨rfl, hopen⟩
  | unchanged herror =>
    obtain ⟨s, rfl, hneg⟩ := herror hopens
    exact .inl ⟨s, rfl, hneg, rfl, rfl, fun _ => ⟨rfl, rfl⟩⟩
  | placed hplaced =>
    cases hplaced with
    | outOfMemory => exact .inl rfl
    | refused hhost _ hrefused _ =>
      refine .inl ⟨errorNomem, rfl, by decide, hrefused.lookup_eq, hrefused.pipeAt_eq, ?_⟩
      rintro (hroom | hgranted)
      · exact hrefused.same hroom
      · exact absurd hhost hgranted
    | opened _ hopened _ => exact .inr ⟨rfl, hopened⟩

theorem run_wf {heap : Heap} {es : List Event} (hproper : ProperRun heap es) :
    (PipeDevice.runFromRealize heap es).Ensures (fun d => ∃ xs, d.Wf xs)
      (fun f => f ≠ .outOfBounds ∧ f ≠ .useAfterFree) := by
  have hrealize : (realize heap).Ensures (fun d => ∃ xs, d.Wf xs)
      (fun f => f ≠ .outOfBounds ∧ f ≠ .useAfterFree) := by
    rcases realize_cases heap with hexit | ⟨d, hd, hwf, -⟩
    · rw [hexit]
      exact ⟨by simp, by simp⟩
    · rw [hd]
      exact ⟨[], hwf⟩
  refine hrealize.bind fun d hd hwf => run_invariant ?_ es d hwf (hproper d hd)
  -- the wanted list changes, that there is one stays
  rintro d e ⟨xs, hxs⟩ he
  exact (event_advances hxs he).imp (fun p ⟨ys, hys⟩ => ⟨ys, hys.wf⟩) fun f hf => ⟨hf.1, hf.2.1⟩

/-- In a run of proper events the table is never accessed outside its capacity and no freed
pipe is used. In every state reached, opening a pipe with any id but the largest one does
what it should; it stops the emulator only if there is no memory for the pipe or the guest
has not set up the open command. -/
theorem open_keeps_table (heap : Heap) (es : List Event) (hproper : ProperRun heap es) :
    (PipeDevice.runFromRealize heap es).Ensures
      (fun d => ∀ id o q, d.lookup (wrapNat 32 id) = none → o.Opens → wrapNat 32 id ≠ 2 ^ 32 - 1 →
        (d.step (.writeCmd id o q)).Ensures (OpensWell d (wrapNat 32 id) o)
          (fun f => f = .outOfMemory ∨ f = .nullPointer ∧ d.openCommand = false))
      (fun f => f ≠ .outOfBounds ∧ f ≠ .useAfterFree) := by
  refine (run_wf hproper).mono ?_
  rintro d' ⟨xs, hxs⟩ id o q hnone hopens hid
  exact opensWell_of_wf hxs q hnone hopens hid

/-- An open command with a buffer that has these bytes for the id. The service accepts the
pipe if it returns a host pipe. -/
def Event.opening (id : ℕ) (bytes : List (ℕ × UInt8)) (hostPipe : Option ℕ) : Event :=
  .writeCmd id ⟨0, 1, some (.ofBytes ((0, 1) :: bytes)), hostPipe, Heap.ample⟩
    ⟨.release, .i386, .shifted 4096, .ofBytes [], ⟨0, 0, none⟩, 0⟩

theorem open_keeps_table_example :
    ProperRun Heap.ample [.writeOpenBuffer 0 true, .opening 70 [(4, 70)] (some 0)] ∧
      (PipeDevice.runFromRealize Heap.ample
          [.writeOpenBuffer 0 true, .opening 70 [(4, 70)] (some 0)]).Ensures
        (fun d => ∀ id o q, d.lookup (wrapNat 32 id) = none → o.Opens → wrapNat 32 id ≠ 2 ^ 32 - 1 →
          (d.step (.writeCmd id o q)).Ensures (OpensWell d (wrapNat 32 id) o)
            (fun f => f = .outOfMemory ∨ f = .nullPointer ∧ d.openCommand = false))
        (fun f => f ≠ .outOfBounds ∧ f ≠ .useAfterFree) := by
  have hproper : ProperRun Heap.ample
      [.writeOpenBuffer 0 true, .opening 70 [(4, 70)] (some 0)] := by
    intro d _
    refine meets_of_forall _ d ?_
    simp only [List.forall_mem_cons, Event.opening, Event.Proper]
    exact ⟨fun _ => trivial, fun _ _ => by decide, by simp⟩
  exact ⟨hproper, open_keeps_table Heap.ample _ hproper⟩

/-- With the largest id the open command writes outside the table: the capacity it asks for
is computed from zero. And a refused open of an id that does not fit leaves a larger table. -/
theorem open_breaks_table : PipeDevice.runFromRealize Heap.ample [.writeOpenBuffer 0 true,
        .opening (2 ^ 32 - 1) [(4, 255), (5, 255), (6, 255), (7, 255)] (some 0)] =
      .error .outOfBounds ∧
    ∃ d d', PipeDevice.runFromRealize Heap.ample [.writeOpenBuffer 0 true] = .ok d ∧
      d.newCapacity (2 ^ 32 - 1) = 128 ∧
      d.step (.opening 64 [(4, 64)] none) = .ok (d', .reply { status := some errorNomem }) ∧
      d.pipesCapacity = 64 ∧ d'.pipesCapacity = 128 :=
  ⟨rfl, _, _, rfl, by decide +kernel, rfl, rfl, rfl⟩

/-- The device can be saved. The image has each open pipe once, and loading it into any device runs
out of memory, fails and leaves no pipe wanted, or leaves every pipe wanted for what it was. -/
def Saves (d : PipeDevice) : Prop :=
  ∃ xs img, d.Wf xs ∧ d.save = .ok img ∧ Records img d xs ∧
    ∀ q (d0 : PipeDevice) zs, d0.Wf zs → Wf.Loads d xs q (d0.load img q)

theorem saved_image_loads (heap : Heap) (es : List Event) (hproper : ProperRun heap es) :
    (PipeDevice.runFromRealize heap es).Ensures Saves
      (fun f => f ≠ .outOfBounds ∧ f ≠ .useAfterFree) := by
  refine (run_wf hproper).mono ?_
  rintro d ⟨xs, hxs⟩
  obtain ⟨img, hsave, hrec⟩ := hxs.save
  exact ⟨xs, img, hxs, hsave, hrec, fun q d0 zs h => Wf.load hrec q h⟩

/-- A pipe that is open and wanted. -/
theorem saved_image_loads_example : (PipeDevice.runFromRealize Heap.ample
      [.writeOpenBuffer 0 true, .opening 70 [(4, 70)] (some 0), .signalWake 0 1]).Ensures Saves
    (fun f => f ≠ .outOfBounds ∧ f ≠ .useAfterFree) := by
  refine saved_image_loads Heap.ample _ ?_
  rintro _ ⟨⟩
  refine ⟨trivial, ?_⟩
  rintro _ _ ⟨⟩
  refine ⟨fun _ => by decide, ?_⟩
  rintro _ _ ⟨⟩
  exact ⟨⟨70, rfl⟩, fun _ _ _ => trivial⟩

/-! ### The wanted list -/

/-- The list holds these pipes, the interrupt is raised if it holds any, and every promise
is one of a pipe on the list. -/
structure Tracked.Keeps (s : Tracked) (xs : List ℕ) : Prop where
  wf : s.dev.Wf xs
  irq : xs ≠ [] → s.dev.irq = true
  promises : ∀ id k, s.pending id k = true → Wants s.dev xs id k

theorem Tracked.step_ensures {s : Tracked} (h : s.Keeps xs) (hproper : e.Proper s.dev) :
    (s.step e).Ensures
      (fun p => (∃ ys, p.1.Keeps ys) ∧ (e.Regular s.dev → BufferOk s.dev → BufferOk p.1.dev))
      (Stops (e.Regular s.dev ∧ BufferOk s.dev)) := by
  refine (event_advances h.wf hproper).bind ?_
  rintro ⟨d', out⟩ _ ⟨ys, hys⟩
  refine ⟨⟨ys, hys.wf, hys.irq h.irq, fun id k hpending => ?_⟩, hys.buffer⟩
  rw [Bool.or_eq_true, Bool.and_eq_true] at hpending
  rcases hpending with ⟨hold, hnot⟩ | hnew
  · rcases hys.kept id k (h.promises id k hold) with hreleased | hwants
    · simp [hreleased] at hnot
    · exact hwants
  · exact hys.signalled id k hnew

/-- A new device, on which nothing was signalled, and a sequence of events. -/
def Tracked.runFromRealize (heap : Heap) (es : List Event) : Checked Tracked := do
  let d ← realize heap
  (run Tracked.step ⟨d, fun _ _ => false⟩ es).2

/-- All events of the run are proper and regular in the state they meet. -/
def RegularRun (heap : Heap) (es : List Event) : Prop :=
  ∀ d, realize heap = .ok d →
    Meets Tracked.step (fun s e => e.Proper s.dev ∧ e.Regular s.dev) ⟨d, fun _ _ => false⟩ es

/-- What is expected of the wanted list: it ends, its links are inverse to each other, without
repetitions; its members are open pipes; the interrupt is raised if there are any; and if there are
none, all that was signalled has been reported. -/
structure WantedSound (s : Tracked) (xs : List ℕ) : Prop where
  isList : (links s.dev.wanted.pipes).IsList s.dev.wanted.first xs
  isOpen : ∀ r ∈ xs, ∃ p, s.dev.wanted.pipes.cell r = some p ∧ s.dev.lookup p.id = some r
  irq : xs ≠ [] → s.dev.irq = true
  reported : xs = [] → ∀ id k, s.pending id k = false

theorem Tracked.Keeps.wantedSound {s : Tracked} (h : s.Keeps xs) : WantedSound s xs where
  isList := h.wf.holds.isList
  isOpen r hr := h.wf.lookup_of_mem hr
  irq := h.irq
  reported := by
    rintro rfl id k
    by_contra hpending
    obtain ⟨r, p, -, -, hmem, -⟩ := h.promises id k (by simpa using hpending)
    simp at hmem

/-- In a run of proper and regular events only a refused memory request or a guest buffer
that cannot be mapped stops the emulator, so no assertion fails; and in every state reached
the wanted list is as expected. -/
theorem wanted_list_sound (heap : Heap) (es : List Event) (hregular : RegularRun heap es) :
    (Tracked.runFromRealize heap es).Ensures (fun s => ∃ xs, WantedSound s xs)
      (fun f => f = .outOfMemory ∨ f = .exit) := by
  have hrealize : (realize heap).Ensures
      (fun d => Tracked.Keeps ⟨d, fun _ _ => false⟩ [] ∧ BufferOk d)
      (fun f => f = .outOfMemory ∨ f = .exit) := by
    rcases realize_cases heap with hexit | ⟨d, hd, hwf, hsize⟩
    · rw [hexit]
      exact .inr rfl
    · rw [hd]
      exact ⟨⟨hwf, fun hne => absurd rfl hne, by simp⟩, .inl hsize⟩
  refine hrealize.bind fun d hd ⟨hkeeps, hbuffer⟩ => ?_
  have hstep (s : Tracked) (e : Event) (h : (∃ xs, s.Keeps xs) ∧ BufferOk s.dev)
      (he : e.Proper s.dev ∧ e.Regular s.dev) :
      (s.step e).Ensures (fun p => (∃ xs, p.1.Keeps xs) ∧ BufferOk p.1.dev)
        (fun f => f = .outOfMemory ∨ f = .exit) := by
    obtain ⟨⟨xs, hxs⟩, hok⟩ := h
    exact (Tracked.step_ensures hxs he.1).imp (fun p hp => ⟨hp.1, hp.2 he.2 hok⟩)
      fun f hf => hf.2.2 ⟨he.2, hok⟩
  refine (run_invariant hstep es _ ⟨⟨[], hkeeps⟩, hbuffer⟩ (hregular d hd)).mono ?_
  rintro s ⟨⟨xs, hxs⟩, -⟩
  exact ⟨xs, hxs.wantedSound⟩

theorem wanted_list_sound_example : RegularRun Heap.ample
        [.writeOpenBuffer 0 true, .opening 70 [(4, 70)] (some 0), .signalWake 0 wakeRead,
          .getSignalled] ∧
      (Tracked.runFromRealize Heap.ample
        [.writeOpenBuffer 0 true, .opening 70 [(4, 70)] (some 0), .signalWake 0 wakeRead,
          .getSignalled]).Ensures (fun s => ∃ xs, WantedSound s xs)
        (fun f => f = .outOfMemory ∨ f = .exit) := by
  have hregular : RegularRun Heap.ample
      [.writeOpenBuffer 0 true, .opening 70 [(4, 70)] (some 0), .signalWake 0 wakeRead,
        .getSignalled] := by
    intro d hd
    obtain rfl := Except.ok.inj hd
    refine ⟨⟨trivial, trivial⟩, fun s1 _ h1 => ?_⟩
    obtain ⟨rfl, -⟩ := Checked.pair_inj h1
    refine ⟨⟨fun _ => by decide, rfl⟩, fun s2 _ h2 => ?_⟩
    obtain ⟨rfl, -⟩ := Checked.pair_inj h2
    exact ⟨⟨⟨70, rfl⟩, trivial⟩, fun _ _ _ => ⟨⟨trivial, trivial⟩, fun _ _ _ => trivial⟩⟩
  exact ⟨hregular, wanted_list_sound Heap.ample _ hregular⟩

/-- Opening a pipe with the largest id stops the emulator at a store outside the table, so
the pipe that would be wanted later is not one of the table. -/
theorem wanted_pipe_outside_table : Tracked.runFromRealize Heap.ample [.writeOpenBuffer 0 true,
        .opening (2 ^ 32 - 1) [(4, 255), (5, 255), (6, 255), (7, 255)] (some 0)] =
      .error .outOfBounds :=
  rfl

end AndroidEmu.Pipe
