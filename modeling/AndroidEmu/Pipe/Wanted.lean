import AndroidEmu.Pipe.Table

/-!
# Events on well-formed devices

The effect of every operation on the pipes at their ids and on the list of wanted pipes, for a
device whose table agrees with memory and whose wanted list is well formed.
-/

namespace AndroidEmu.Pipe.PipeDevice

open CS Checked List Option Store WantedList

/-- The table agrees with memory, and the wanted list holds these pipes. -/
structure Wf (d : PipeDevice) (xs : List ℕ) : Prop where
  table : d.TableOk
  holds : d.wanted.Holds xs

/-- The fields that have nothing to do with pipes. -/
def front (d : PipeDevice) : Bool × UInt64 × ℕ × Bool × UInt64 × Bool :=
  (d.irq, d.signalledPipeBufferAddr, d.signalledPipeBufferSize, d.signalledPipeBuffer,
    d.openCommandAddr, d.openCommand)

/-- A pipe was opened at an id: the table has a slot for it, in which there is a new pipe,
and all other pipes are where and as they were. -/
structure Opened (d d' : PipeDevice) (id : ℕ) : Prop where
  lt_capacity : id < d'.pipesCapacity
  new : ∃ r p, d'.lookup id = some r ∧ d.pipeAt r = none ∧ d'.pipeAt r = some p ∧ p.id = id
  lookup_eq : ∀ j, j ≠ id → d'.lookup j = d.lookup j
  pipeAt_eq : ∀ q, d.pipeAt q ≠ none → d'.pipeAt q = d.pipeAt q

/-- The service refused the pipe. The pipes are where and as they were; only the table may
have grown. -/
structure Refused (d d' : PipeDevice) (id : ℕ) : Prop where
  lookup_eq : d'.lookup = d.lookup
  pipeAt_eq : d'.pipeAt = d.pipeAt
  same : id < d.pipesCapacity → d'.pipes = d.pipes ∧ d'.pipesCapacity = d.pipesCapacity

/-- The request is for a new pipe, and its command buffer can be mapped. -/
def OpenRequest.Opens (q : OpenRequest) : Prop :=
  ∃ b, q.commandBuffer = some b ∧ b.cmd = 1

/-- Whether a set of wake flags has the flag of a bit. -/
def hasFlag (flags : UInt8) (k : ℕ) : Bool := flags.toNat.testBit k

theorem hasFlag_or (a b : UInt8) (k : ℕ) : hasFlag (a ||| b) k = (hasFlag a k || hasFlag b k) := by
  rw [hasFlag, UInt8.toNat_or, Nat.testBit_or]
  rfl

/-- The pipe at an id is wanted with a flag: the next reads of GET_SIGNALLED will say so. -/
def Wants (d : PipeDevice) (xs : List ℕ) (id k : ℕ) : Prop :=
  ∃ r p, d.lookup id = some r ∧ d.pipeAt r = some p ∧ r ∈ xs ∧ hasFlag p.wanted k = true

/-- What making a new pipe for id `i` can come to: there is no memory for it, or the service
refuses it, or it is opened. -/
inductive Placed (d : PipeDevice) (xs : List ℕ) (i : ℕ) (q : OpenRequest) :
    Checked (PipeDevice × Option ℤ) → Prop
  | outOfMemory : Placed d xs i q (.error .outOfMemory)
  | refused {d' : PipeDevice} (hhost : q.hostPipe = none) (hwf : d'.Wf xs) (h : Refused d d' i)
    (hfront : d'.front = d.front) : Placed d xs i q (.ok (d', some errorNomem))
  | opened {d' : PipeDevice} (hwf : d'.Wf xs) (h : Opened d d' i) (hfront : d'.front = d.front) :
    Placed d xs i q (.ok (d', some 0))

/-- What a command for an id without a pipe can come to: the open command is not mapped, or
nothing changes, or a pipe is made. -/
inductive OpenResult (d : PipeDevice) (xs : List ℕ) (i : ℕ) (q : OpenRequest) :
    Checked (PipeDevice × Option ℤ) → Prop
  | nullPointer (hopen : d.openCommand = false) : OpenResult d xs i q (.error .nullPointer)
  | unchanged {status : Option ℤ} (h : q.Opens → ∃ s, status = some s ∧ s < 0) :
    OpenResult d xs i q (.ok (d, status))
  | placed {x : Checked (PipeDevice × Option ℤ)} (h : Placed d xs i q x) : OpenResult d xs i q x

variable {d d' : PipeDevice}

theorem Placed.of_grown {xs : List ℕ} {i capacity : ℕ} {q : OpenRequest}
    {pipes : List (Option ℕ)} {x : Checked (PipeDevice × Option ℤ)}
    (h : Placed { d with pipes, pipesCapacity := capacity } xs i q x) (hi : i < capacity)
    (hlookup : { d with pipes, pipesCapacity := capacity }.lookup = d.lookup)
    (hsame : i < d.pipesCapacity → pipes = d.pipes ∧ capacity = d.pipesCapacity) :
    Placed d xs i q x := by
  cases h with
  | outOfMemory => exact .outOfMemory
  | refused hhost hwf h hfront =>
    refine .refused hhost hwf ⟨h.lookup_eq.trans hlookup, h.pipeAt_eq, fun hroom => ?_⟩ hfront
    obtain ⟨hpipes, hcapacity⟩ := hsame hroom
    obtain ⟨hpipes', hcapacity'⟩ := h.same hi
    exact ⟨hpipes'.trans hpipes, hcapacity'.trans hcapacity⟩
  | opened hwf h hfront =>
    refine .opened hwf ⟨h.lt_capacity, h.new, fun j hj => ?_, h.pipeAt_eq⟩ hfront
    exact (h.lookup_eq j hj).trans (congrFun hlookup j)

theorem realize_cases (heap : Heap) : realize heap = .error .exit ∨
      ∃ d, realize heap = .ok d ∧ d.Wf [] ∧ d.signalledPipeBufferSize = 0 := by
  rw [realize]
  split_ifs
  · refine .inr ⟨_, rfl, ⟨⟨by simp, by simp, fun hr => ?_, fun hp => ?_⟩, ?_⟩, rfl⟩
    · exfalso
      simp only [lookup, getElem?_replicate] at hr
      split_ifs at hr
      simp at hr
    · simp [pipeAt, content, empty] at hp
    · exact Holds.empty (fun _ => rfl) rfl
  · exact .inl rfl

/-- Pipes may have changed, but they are where they were, and wanted for no less. -/
structure Unmoved (d d' : PipeDevice) (xs : List ℕ) : Prop where
  wf : d'.Wf xs
  front_eq : d'.front = d.front
  lookup_eq : d'.lookup = d.lookup
  wants : ∀ id k, Wants d xs id k → Wants d' xs id k

/-- A pipe and its place in the table are gone. -/
structure Closed (d d' : PipeDevice) (i r : ℕ) : Prop where
  front_eq : d'.front = d.front
  lookup_eq : ∀ j, d'.lookup j = if j = i then none else d.lookup j
  pipeAt_eq : ∀ q, d'.pipeAt q = if q = r then none else d.pipeAt q

/-- Commands that can fail an assertion or leave their buffers: transfers, and in a debug
build OPEN on an open pipe. -/
def CommandRequest.MayFault (q : CommandRequest) : Prop :=
  q.commandBuffer.cmd = 1 ∧ q.build ≠ .release ∨
    q.commandBuffer.cmd = 4 ∨ q.commandBuffer.cmd = 6 ∨ q.commandBuffer.cmd = 11

/-- What a command on the pipe `r` at id `i` can come to: it fails as transfers can, or it
closes the pipe, or it leaves all pipes where they are. -/
inductive Commanded (d : PipeDevice) (xs : List ℕ) (i r : ℕ) (q : CommandRequest) :
    Checked (PipeDevice × Reply) → Prop
  | failed {f : Fault} (hf : f = .assertion ∨ f = .bufferOverrun) (hq : q.MayFault) :
    Commanded d xs i r q (.error f)
  | closed {d' : PipeDevice} {reply : Reply} (hcmd : q.commandBuffer.cmd = 2)
    (hwf : d'.Wf (xs.erase r)) (h : Closed d d' i r) : Commanded d xs i r q (.ok (d', reply))
  | unmoved {d' : PipeDevice} {reply : Reply} (hcmd : q.commandBuffer.cmd ≠ 2)
    (h : Unmoved d d' xs) : Commanded d xs i r q (.ok (d', reply))

namespace Wf

variable {d : PipeDevice} {xs : List ℕ} {i r : ℕ} {p : HwPipe}

/-! ### Single steps -/

variable {f : HwPipe → HwPipe}

theorem modifyPipe (h : d.Wf xs) (hp : d.wanted.pipes.cell r = some p) (hid : (f p).id = p.id)
    (hnext : (f p).wantedNext = p.wantedNext) (hprev : (f p).wantedPrev = p.wantedPrev) :
    let d' : PipeDevice := { d with wanted.pipes := d.wanted.pipes.put r (some (f p)) }
    d.modifyPipe r f = .ok d' ∧ d'.Wf xs := by
  intro d'
  refine ⟨by rw [PipeDevice.modifyPipe, modify_of hp]; rfl, ?_, h.holds.modify hp hnext hprev⟩
  have hcontent (q : ℕ) : d'.pipeAt q = if q = r then some (f p).core else d.pipeAt q :=
    content_put _ r q _
  have hold : d.pipeAt r = some p.core := content_of_cell hp
  constructor
  case length_le => exact h.table.length_le
  case capacity_lt => exact h.table.capacity_lt
  case found =>
    intro j q hj
    obtain ⟨p', hp', hid'⟩ := h.table.found hj
    by_cases hqr : q = r
    · subst hqr
      obtain rfl := some.inj (hold.symm.trans hp')
      exact ⟨(f p).core, by rw [hcontent, if_pos rfl], hid.trans hid'⟩
    · exact ⟨p', by rw [hcontent, if_neg hqr, hp'], hid'⟩
  case stored =>
    intro q p' hp'
    rw [hcontent] at hp'
    split_ifs at hp' with hqr
    · obtain rfl := some.inj hp'
      have := h.table.stored hold
      rw [hqr]
      exact hid.symm ▸ this
    · exact h.table.stored hp'

theorem wantedPipesAdd (h : d.Wf xs) (hr : (d.wanted.pipes.cell r).isSome) :
    ∃ w, d.wantedPipesAdd r = .ok { d with wanted := w } ∧ Wf { d with wanted := w } (xs.insert r) ∧
      content w.pipes = content d.wanted.pipes := by
  obtain ⟨w, hw, hholds, hsame⟩ := h.holds.add hr
  refine ⟨w, by rw [PipeDevice.wantedPipesAdd, hw]; rfl, ⟨?_, hholds⟩, hsame⟩
  exact h.table.congr rfl rfl hsame

theorem exists_cell (h : d.Wf xs) (hr : d.lookup i = some r) :
    ∃ p, d.wanted.pipes.cell r = some p ∧ p.id = i := by
  obtain ⟨p, hp, hid⟩ := h.table.found hr
  obtain ⟨p', hp', rfl⟩ := exists_cell_of_content hp
  exact ⟨p', hp', hid⟩

theorem lookup_of_mem (h : d.Wf xs) (hr : r ∈ xs) :
    ∃ p, d.wanted.pipes.cell r = some p ∧ d.lookup p.id = some r := by
  obtain ⟨p, hp⟩ := isSome_iff_exists.mp (h.holds.live r hr)
  exact ⟨p, hp, h.table.stored_cell hp⟩

/-! ### Opening and closing -/

theorem place (h : d.Wf xs) (hi : i < d.pipesCapacity) (hfree : d.lookup i = none)
    (hr : d.wanted.pipes.cell r = none) (hid : p.id = i) (hnext : p.wantedNext = none)
    (hprev : p.wantedPrev = none) : Wf { d with
      pipes := d.pipes.set i (some r)
      wanted.pipes := d.wanted.pipes.put r (some p) } xs := by
  refine ⟨?_, h.holds.alloc hr hnext hprev⟩
  refine h.table.insert (length_set ..) rfl hfree (content_eq_none.mpr hr) (p := p.core) hid
    (lookup_set h.table.length_le hi _) fun q => content_put _ r q _

theorem freeNew (h : d.Wf xs) (hnew : d.wanted.pipes.cell r = none) (p : HwPipe) :
    let d' : PipeDevice := { d with wanted.pipes := d.wanted.pipes.put r none }
    hwpipeFree { d with wanted.pipes := d.wanted.pipes.put r (some p) } r = .ok d' ∧ d'.Wf xs ∧
      d'.pipeAt = d.pipeAt := by
  intro d'
  have hcontent : d'.pipeAt = d.pipeAt := by
    funext q
    rw [pipeAt, content_put]
    split_ifs with hq
    · rw [hq]
      exact (content_eq_none.mpr hnew).symm
    · rfl
  have hout : r ∉ xs := by
    intro hmem
    have := h.holds.live r hmem
    rw [hnew] at this
    simp at this
  refine ⟨?_, ⟨h.table.congr rfl rfl hcontent, h.holds.free hout⟩, hcontent⟩
  rw [hwpipeFree, free_of (put_cell_self ..), put_put]
  rfl

theorem openPipe (h : d.Wf xs) (hi : i < d.pipesCapacity) (hfree : d.lookup i = none)
    (q : OpenRequest) : Placed d xs i q (d.openPipe i q) := by
  have hnew := d.wanted.pipes.cell_bound
  generalize hr : d.wanted.pipes.bound = r at hnew
  rw [PipeDevice.openPipe, hwpipeNew]
  by_cases hgrant : q.heap.grants hwPipeBytes = true
  swap
  · rw [if_neg hgrant]
    exact .outOfMemory
  rw [if_pos hgrant]
  simp only [alloc, ok_bind, hr]
  split_ifs with hhost
  · obtain ⟨hfreed, hwf, hcontent⟩ := h.freeNew hnew _
    rw [hfreed]
    exact .refused hhost hwf ⟨rfl, hcontent, fun _ => ⟨rfl, rfl⟩⟩ rfl
  · let p : HwPipe := {
      id := i
      hostPipe := q.hostPipe
      commandBufferAddr := q.commandBufferPtr
      rwParamsMaxCount := q.rwParamsMaxCount }
    have hset := setSlot_of (d := { d with wanted.pipes := d.wanted.pipes.put r (some p) })
      h.table.length_le hi (some r)
    have hlookup := lookup_set h.table.length_le hi (some r)
    rw [PipeDevice.modifyPipe, modify_of (put_cell_self ..), put_put]
    simp only [ok_bind, pure_eq_ok]
    rw [hset]
    refine .opened (h.place (p := p) hi hfree hnew rfl rfl rfl) ?_ rfl
    constructor
    case lt_capacity => exact hi
    case new =>
      refine ⟨r, p.core, (hlookup i).trans (if_pos rfl), content_eq_none.mpr hnew, ?_, rfl⟩
      exact content_of_cell (put_cell_self ..)
    case lookup_eq => exact fun j hj => (hlookup j).trans (if_neg hj)
    case pipeAt_eq =>
      intro q hq
      rw [pipeAt, content_put, if_neg]
      rintro rfl
      exact hq (content_eq_none.mpr hnew)

theorem doOpenClose (h : d.Wf xs) (hfree : d.lookup i = none) {q : OpenRequest}
    (hi : q.Opens → i < 2 ^ 32 - 1) : OpenResult d xs i q (d.doOpenClose i q) := by
  rw [PipeDevice.doOpenClose]
  by_cases hopen : d.openCommand = false
  · rw [if_pos hopen]
    exact .nullPointer hopen
  rw [if_neg hopen]
  cases hb : q.commandBuffer with
  | none =>
    refine .unchanged ?_
    rintro ⟨b, hb', -⟩
    simp [hb] at hb'
  | some b =>
    simp only
    split_ifs with hcount hid hclose hcmd
    · exact .unchanged fun _ => ⟨_, rfl, by decide⟩
    · exact .unchanged fun _ => ⟨_, rfl, by decide⟩
    · refine .unchanged ?_
      rintro ⟨b', hb', hcmd⟩
      obtain rfl := some.inj (hb.symm.trans hb')
      omega
    · exact .unchanged fun _ => ⟨_, rfl, by decide⟩
    have hopens : q.Opens := ⟨b, hb, by simpa using hcmd⟩
    rcases h.table.grow q.heap (hi hopens) with hnone |
      ⟨pipes, capacity, hgrow, htable, hlt, hlookup, hsame⟩
    · rw [hnone]
      exact .unchanged fun _ => ⟨_, rfl, by decide⟩
    rw [hgrow]
    have hwf : Wf { d with pipes, pipesCapacity := capacity } xs := ⟨htable, h.holds⟩
    exact .placed ((hwf.openPipe hlt (by rw [hlookup, hfree]) q).of_grown hlt hlookup hsame)

theorem closePipe (h : d.Wf xs) (hr : d.lookup i = some r) (hp : d.wanted.pipes.cell r = some p) :
    ∃ d', d.closePipe r p = .ok (d', { status := some 0 }) ∧ d'.Wf (xs.erase r) ∧
      Closed d d' i r := by
  have hid : p.id = i := by
    obtain ⟨p', hp', hid⟩ := h.exists_cell hr
    obtain rfl := some.inj (hp.symm.trans hp')
    exact hid
  have hi := lt_capacity_of_lookup hr
  obtain ⟨w, hw, hholds, hsame⟩ := h.holds.remove (r := r) (by simp [hp])
  have hlookup (j : ℕ) := lookup_set h.table.length_le hi none j
  have hcontent (q : ℕ) : content (w.pipes.put r none) q = if q = r then none else d.pipeAt q := by
    rw [content_put, pipeAt, ← hsame]
    rfl
  have hlive : (w.pipes.cell r).isSome := by
    rw [isSome_cell_of_content hsame, hp]
    rfl
  obtain ⟨p', hp'⟩ := isSome_iff_exists.mp hlive
  refine ⟨{ d with pipes := d.pipes.set i none, wanted := ⟨w.pipes.put r none, w.first⟩ }, ?_,
    ⟨?_, ?_⟩, rfl, hlookup, hcontent⟩
  · rw [PipeDevice.closePipe, hid, setSlot_of h.table.length_le hi]
    simp only [ok_bind, PipeDevice.wantedPipesRemove, hw, pure_eq_ok, hwpipeFree, free_of hp']
  · exact h.table.remove (length_set ..) rfl hr hlookup hcontent
  · exact hholds.free (h.holds.isList.nodup.not_mem_erase)

theorem wants_of_closed {id k : ℕ} (h : d.Wf xs) (hr : d.lookup i = some r)
    (hclosed : Closed d d' i r) (hw : Wants d xs id k) (hid : id ≠ i) :
    Wants d' (xs.erase r) id k := by
  obtain ⟨q, p, hq, hp, hmem, hflag⟩ := hw
  have hqr : q ≠ r := by
    rintro rfl
    obtain ⟨p1, hp1, hid1⟩ := h.table.found hq
    obtain ⟨p2, hp2, hid2⟩ := h.table.found hr
    rw [hp1] at hp2
    exact hid (hid1 ▸ hid2 ▸ congrArg HwPipe.id (some.inj hp2))
  refine ⟨q, p, ?_, ?_, (mem_erase_of_ne hqr).mpr hmem, hflag⟩
  · rw [hclosed.lookup_eq, if_neg hid, hq]
  · rw [hclosed.pipeAt_eq, if_neg hqr, hp]

/-! ### Signalling -/

theorem wants_of_modified {ys : List ℕ} {id k : ℕ} {p' : HwPipe}
    (hp : d.pipeAt r = some p) (hlookup : d'.lookup = d.lookup)
    (hcontent : ∀ q, d'.pipeAt q = if q = r then some p' else d.pipeAt q)
    (hflags : hasFlag p.wanted k = true → hasFlag p'.wanted k = true) (hsub : ∀ q ∈ xs, q ∈ ys)
    (hw : Wants d xs id k) : Wants d' ys id k := by
  obtain ⟨q, p1, hq, hp1, hmem, hflag⟩ := hw
  by_cases hqr : q = r
  · subst hqr
    obtain rfl := some.inj (hp.symm.trans hp1)
    exact ⟨q, p', by rw [hlookup, hq], by rw [hcontent, if_pos rfl], hsub q hmem, hflags hflag⟩
  · exact ⟨q, p1, by rw [hlookup, hq], by rw [hcontent, if_neg hqr, hp1], hsub q hmem, hflag⟩

theorem wake (h : d.Wf xs) (hr : d.lookup i = some r) (hp : d.wanted.pipes.cell r = some p)
    (hid : (f p).id = p.id) (hnext : (f p).wantedNext = p.wantedNext)
    (hprev : (f p).wantedPrev = p.wantedPrev)
    (hflags : ∀ k, hasFlag p.wanted k = true → hasFlag (f p).wanted k = true) :
    ∃ w, let d' : PipeDevice := { d with wanted := w }
      (d.modifyPipe r f >>= fun d => d.wantedPipesAdd r) = .ok d' ∧ d'.Wf (xs.insert r) ∧
        (∀ id k, Wants d xs id k → Wants d' (xs.insert r) id k) ∧
        ∀ k, hasFlag (f p).wanted k = true → Wants d' (xs.insert r) i k := by
  obtain ⟨hmodify, hwf⟩ := h.modifyPipe hp hid hnext hprev
  have hlive : ((d.wanted.pipes.put r (some (f p))).cell r).isSome := by
    rw [put_cell_self]
    rfl
  obtain ⟨w, hadd, hwf', hsame⟩ := hwf.wantedPipesAdd hlive
  have hcontent (q : ℕ) : content w.pipes q = if q = r then some (f p).core else d.pipeAt q := by
    rw [hsame]
    exact content_put _ r q _
  refine ⟨w, by rw [hmodify, ok_bind, hadd], hwf', fun id k => ?_, fun k hflag => ?_⟩
  · exact wants_of_modified (content_of_cell hp) rfl hcontent (hflags k)
      fun q hq => mem_insert_of_mem hq
  · exact ⟨r, _, hr, (hcontent r).trans (if_pos rfl), mem_insert_self, hflag⟩

theorem signalWake (h : d.Wf xs) (hr : d.lookup i = some r) (flags : UInt8) :
    ∃ w, let d' : PipeDevice := { d with wanted := w, irq := true }
      d.signalWake r flags = .ok d' ∧ d'.Wf (xs.insert r) ∧
        (∀ id k, Wants d xs id k → Wants d' (xs.insert r) id k) ∧
        ∀ k, hasFlag flags k = true → Wants d' (xs.insert r) i k := by
  obtain ⟨p, hp, -⟩ := h.exists_cell hr
  obtain ⟨w, hwake, hwf, hkeep, hnew⟩ := h.wake hr hp
    (f := fun p => { p with wanted := p.wanted ||| flags }) rfl rfl rfl (by
      intro k hflag
      rw [hasFlag_or, hflag, Bool.true_or])
  refine ⟨w, ?_, ⟨hwf.table.congr rfl rfl rfl, hwf.holds⟩, hkeep, fun k hflag => hnew k ?_⟩
  · obtain ⟨d1, hmodify, hadd⟩ := bind_eq_ok.mp hwake
    rw [PipeDevice.signalWake, hmodify, ok_bind, hadd]
    rfl
  · rw [hasFlag_or, hflag, Bool.or_true]

theorem closeFromHost (h : d.Wf xs) (hr : d.lookup i = some r) :
    (d.pipeAt r).map HwPipe.closed = some true ∧ d.closeFromHost r = .ok d ∨
    (d.pipeAt r).map HwPipe.closed = some false ∧
      ∃ w, let d' : PipeDevice := { d with wanted := w, irq := true }
        d.closeFromHost r = .ok d' ∧ d'.Wf (xs.insert r) ∧
          (∀ id k, Wants d xs id k → Wants d' (xs.insert r) id k) ∧
          ∀ k, hasFlag wakeClosed k = true → Wants d' (xs.insert r) i k := by
  obtain ⟨p, hp, -⟩ := h.exists_cell hr
  have hcontent : d.pipeAt r = some p.core := content_of_cell hp
  rw [PipeDevice.closeFromHost, loadPipe, load_of hp, ok_bind, hcontent]
  cases hclosed : p.closed with
  | true => exact .inl ⟨congrArg some hclosed, rfl⟩
  | false =>
    refine .inr ⟨congrArg some hclosed, ?_⟩
    obtain ⟨hmodify, hwf⟩ := h.modifyPipe hp (f := fun p => { p with closed := true }) rfl rfl rfl
    obtain ⟨w, hd', hwf', hkeep, hnew⟩ := hwf.signalWake hr wakeClosed
    refine ⟨w, ?_, hwf', fun id k hw => hkeep id k ?_, hnew⟩
    · rw [if_neg (by simp), hmodify, ok_bind, hd']
    · exact wants_of_modified hcontent rfl (fun q => content_put _ r q _) (fun hf => hf)
        (fun _ hq => hq) hw

theorem drain_step (h : d.Wf (r :: xs)) (n : ℕ) (hbuffer : d.signalledPipeBuffer = true) :
    ∃ w f id, let d' : PipeDevice := { d with wanted := w }
      PipeDevice.drain (n + 1) d = (do
        let (d, entries) ← PipeDevice.drain n d'
        return (d, (id, f) :: entries)) ∧ d'.Wf xs ∧
      ∀ j k, Wants d (r :: xs) j k → (j = id ∧ hasFlag f k = true) ∨ Wants d' xs j k := by
  obtain ⟨w, hw, hholds, hsame⟩ := h.holds.popFirst
  have hwf : Wf { d with wanted := w } xs := ⟨h.table.congr rfl rfl hsame, hholds⟩
  obtain ⟨p0, hp0⟩ := isSome_iff_exists.mp (h.holds.live r (by simp))
  obtain ⟨p, hp, hcore⟩ : ∃ p, w.pipes.cell r = some p ∧ p.core = p0.core :=
    exists_cell_of_content ((congrFun hsame r).trans (content_of_cell hp0))
  obtain ⟨hmodify, hwf'⟩ := hwf.modifyPipe hp (f := fun p => { p with wanted := 0 }) rfl rfl rfl
  refine ⟨⟨w.pipes.put r (some { p with wanted := 0 }), w.first⟩, p.wanted, p.id, ?_, hwf', ?_⟩
  · rw [PipeDevice.drain, hw, ok_bind]
    simp only [loadPipe, load_of hp, ok_bind]
    rw [if_neg (by simp [hbuffer]), hmodify, ok_bind]
  · rintro j k ⟨q, p1, hq, hp1, hmem, hflag⟩
    have hold : d.pipeAt r = some p.core := by
      rw [hcore]
      exact content_of_cell hp0
    by_cases hqr : q = r
    · -- the pipe just reported
      subst hqr
      obtain rfl := some.inj (hold.symm.trans hp1)
      obtain ⟨p2, hp2, hid⟩ := h.table.found hq
      obtain rfl := some.inj (hold.symm.trans hp2)
      exact .inl ⟨hid.symm, hflag⟩
    · refine .inr ⟨q, p1, hq, ?_, ?_, hflag⟩
      · rw [pipeAt, content_put, if_neg hqr, hsame]
        exact hp1
      · exact (mem_cons.mp hmem).resolve_left hqr

/-- The loop of GET_SIGNALLED reports as many pipes as there is room for; nothing a pipe was
wanted for is lost. -/
theorem drain : ∀ (n : ℕ) {d : PipeDevice} {xs : List ℕ}, d.Wf xs →
    n = 0 ∨ xs = [] ∨ d.signalledPipeBuffer = true →
    ∃ w entries, let d' : PipeDevice := { d with wanted := w }
      PipeDevice.drain n d = .ok (d', entries) ∧ d'.Wf (xs.drop n) ∧
      ∀ id k, Wants d xs id k →
        (∃ f, (id, f) ∈ entries ∧ hasFlag f k = true) ∨ Wants d' (xs.drop n) id k := by
  intro n
  induction n with
  | zero => exact fun {d xs} h _ => ⟨d.wanted, [], rfl, h, fun id k hw => .inr hw⟩
  | succ n ih =>
    intro d xs h hbuffer
    cases xs with
    | nil =>
      refine ⟨d.wanted, [], ?_, h, fun id k hw => .inr hw⟩
      rw [PipeDevice.drain, h.holds.popFirst_nil]
      rfl
    | cons r xs =>
      have hmapped := (hbuffer.resolve_left (by omega)).resolve_left (by simp)
      obtain ⟨w, f, id, hstep, hwf, hwants⟩ := h.drain_step n hmapped
      obtain ⟨w', entries, hrest, hwf', hwants'⟩ := ih hwf (.inr (.inr hmapped))
      refine ⟨w', (id, f) :: entries, ?_, hwf', fun j k hw => ?_⟩
      · rw [hstep, hrest]
        rfl
      · rcases hwants j k hw with ⟨rfl, hflag⟩ | hw'
        · exact .inl ⟨f, by simp, hflag⟩
        · rcases hwants' j k hw' with ⟨f', hf', hflag⟩ | hw''
          · exact .inl ⟨f', mem_cons_of_mem _ hf', hflag⟩
          · exact .inr hw''

theorem getSignalled (h : d.Wf xs)
    (hbuffer : d.signalledPipeBufferSize = 0 ∨ xs = [] ∨ d.signalledPipeBuffer = true) :
    ∃ w irq entries, let d' : PipeDevice := { d with wanted := w, irq := irq }
      let ys := xs.drop d.signalledPipeBufferSize
      d.getSignalled = .ok (d', entries) ∧ d'.Wf ys ∧ (ys ≠ [] → irq = d.irq) ∧
      ∀ id k, Wants d xs id k →
        (∃ f, (id, f) ∈ entries ∧ hasFlag f k = true) ∨ Wants d' ys id k := by
  obtain ⟨w, entries, hdrain, hwf, hwants⟩ := drain d.signalledPipeBufferSize h hbuffer
  rw [PipeDevice.getSignalled, hdrain, ok_bind]
  simp only
  split_ifs with hfirst
  · refine ⟨w, false, entries, rfl, ⟨hwf.table.congr rfl rfl rfl, hwf.holds⟩, ?_, hwants⟩
    intro hne
    obtain ⟨r, rs, hrs⟩ := exists_cons_of_ne_nil hne
    have := hwf.holds.isList.first_eq
    rw [hrs] at this
    simp [hfirst] at this
  · exact ⟨w, d.irq, entries, rfl, hwf, fun _ => rfl, hwants⟩

/-- Without the buffer, a read of GET_SIGNALLED that finds a wanted pipe follows a null
pointer. -/
theorem getSignalled_unmapped (h : d.Wf (r :: xs)) (hsize : d.signalledPipeBufferSize ≠ 0)
    (hbuffer : d.signalledPipeBuffer = false) : d.getSignalled = .error .nullPointer := by
  obtain ⟨n, hn⟩ := Nat.exists_eq_succ_of_ne_zero hsize
  obtain ⟨w, hw, -, hsame⟩ := h.holds.popFirst
  have hlive : (w.pipes.cell r).isSome := by
    rw [isSome_cell_of_content hsame]
    exact h.holds.live r (by simp)
  obtain ⟨p, hp⟩ := isSome_iff_exists.mp hlive
  rw [PipeDevice.getSignalled, hn, PipeDevice.drain, hw]
  simp only [loadPipe, load_of hp, ok_bind]
  rw [if_pos hbuffer]
  rfl

theorem readVersion (h : d.Wf xs) : ∃ d', d.readVersion = .ok d' ∧ d'.Wf [] ∧ d'.irq = false ∧
      d'.signalledPipeBufferSize = d.signalledPipeBufferSize ∧
      d'.signalledPipeBuffer = d.signalledPipeBuffer := by
  obtain ⟨pipes, store, hclose, htable, -, hnone⟩ := h.table.closeAll
  refine ⟨{ d with pipes, wanted := ⟨store, none⟩, irq := false }, ?_, ⟨?_, ?_⟩, rfl, rfl, rfl⟩
  · rw [PipeDevice.readVersion, hclose]
    rfl
  · exact htable.congr rfl rfl rfl
  · exact Holds.empty hnone rfl

/-! ### Commands -/

theorem unmoved (h : d.Wf xs) : Unmoved d d xs := ⟨h, rfl, rfl, fun _ _ hw => hw⟩

section

variable (hp : d.wanted.pipes.cell r = some p)

include hp

theorem modifyPipe_unmoved (h : d.Wf xs) (hid : (f p).id = p.id)
    (hnext : (f p).wantedNext = p.wantedNext) (hprev : (f p).wantedPrev = p.wantedPrev)
    (hflags : ∀ k, hasFlag p.wanted k = true → hasFlag (f p).wanted k = true) :
    ∃ d', d.modifyPipe r f = .ok d' ∧ Unmoved d d' xs := by
  obtain ⟨hmodify, hwf⟩ := h.modifyPipe hp hid hnext hprev
  refine ⟨_, hmodify, hwf, rfl, rfl, fun id k hw => ?_⟩
  exact wants_of_modified (content_of_cell hp) rfl (fun q => content_put _ r q _) (hflags k)
    (fun _ hq => hq) hw

theorem doTransfer (h : d.Wf xs) (kind : RwKind) {q : CommandRequest}
    (hcmd : q.commandBuffer.cmd = 4 ∨ q.commandBuffer.cmd = 6 ∨ q.commandBuffer.cmd = 11) :
    Commanded d xs i r q (d.doTransfer r p kind q) := by
  rw [PipeDevice.doTransfer]
  cases Pipe.transfer q.build q.target q.mem p q.commandBuffer kind q.replies with
  | error f =>
    refine .failed (f := liftFault f) ?_ (.inr hcmd)
    cases f <;> simp [liftFault]
  | ok o =>
    obtain ⟨d', hd', hunmoved⟩ := h.modifyPipe_unmoved hp
      (f := fun p => { p with hostPipe := o.hostPipe }) rfl rfl rfl fun _ hf => hf
    simp only [Except.mapError, ok_bind, hd']
    exact .unmoved (by omega) hunmoved

theorem wakeOn (h : d.Wf xs) (flag : UInt8) {q : CommandRequest} (hcmd : q.commandBuffer.cmd ≠ 2) :
    Commanded d xs i r q (d.wakeOn r p flag) := by
  rw [PipeDevice.wakeOn]
  split_ifs
  · obtain ⟨d', hd', hunmoved⟩ := h.modifyPipe_unmoved hp
      (f := fun p => { p with wanted := p.wanted ||| flag }) rfl rfl rfl (by
        intro k hflag
        rw [hasFlag_or, hflag, Bool.true_or])
    rw [hd']
    exact .unmoved hcmd hunmoved
  · exact .unmoved hcmd h.unmoved

end

theorem doCommand (h : d.Wf xs) (hr : d.lookup i = some r) (q : CommandRequest) :
    Commanded d xs i r q (d.doCommand r q) := by
  obtain ⟨p, hp, -⟩ := h.exists_cell hr
  rw [PipeDevice.doCommand, loadPipe, load_of hp]
  simp only
  by_cases hopen : q.build = .release ∨ q.commandBuffer.cmd ≠ 1
  swap
  · rw [check_of_not hopen]
    push Not at hopen
    exact .failed (.inl rfl) (.inl ⟨hopen.2, hopen.1⟩)
  rw [check_of hopen, ok_bind]
  split_ifs with hclosed
  · exact .unmoved hclosed.2 h.unmoved
  split
  case h_1 hcmd =>
    obtain ⟨d', hd', hwf, hgone⟩ := h.closePipe hr hp
    rw [hd']
    exact .closed hcmd hwf hgone
  case h_3 hcmd => exact h.doTransfer hp .write (.inl hcmd)
  case h_4 hcmd => exact h.wakeOn hp wakeWrite (by omega)
  case h_5 hcmd => exact h.doTransfer hp .read (.inr (.inl hcmd))
  case h_6 hcmd => exact h.wakeOn hp wakeRead (by omega)
  case h_9 hcmd => exact h.doTransfer hp .call (.inr (.inr hcmd))
  -- the others touch no pipe
  all_goals exact .unmoved (by omega) h.unmoved

end Wf

end AndroidEmu.Pipe.PipeDevice
