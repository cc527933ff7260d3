import AndroidEmu.CS.SinglyLinked
import AndroidEmu.Utils.CBuffer

/-!
# Character pipes and buffered character devices

`android-qemu2-glue/emulation/charpipe.c`. A pipe half asks its peer how much it can accept and then
hands that much over; a buffered device hands bytes over and is told how many were accepted. What is
left goes into a chain of circular buffers.
-/

namespace AndroidEmu.Glue

open CS Utils Function List CBuffer

/-! ### Buffers -/

def bipBufferSize : ℕ := 512

structure BipBuffer where
  next : Option ℕ
  cb : CBuffer

/-- The buffers by address, of which those from `used` on were never allocated, and
`_free_bip_buffers`. -/
structure Bips where
  bip : ℕ → BipBuffer
  used : ℕ
  free : Option ℕ

namespace Bips

def next (m : Bips) (b : ℕ) : Option ℕ := (m.bip b).next

def setNext (m : Bips) (b : ℕ) (next : Option ℕ) : Bips :=
  { m with bip := Function.update m.bip b ⟨next, (m.bip b).cb⟩ }

def setCb (m : Bips) (b : ℕ) (cb : CBuffer) : Bips :=
  { m with bip := Function.update m.bip b ⟨(m.bip b).next, cb⟩ }

/-- A buffer as it is handed out. -/
def reset (m : Bips) (b : ℕ) : Bips :=
  { m with bip := Function.update m.bip b ⟨none, .reset (m.bip b).cb.buff bipBufferSize⟩ }

/-- `bip_buffer_alloc` while there is memory; the process exits when there is none for a new one. -/
def alloc (m : Bips) : Bips × ℕ :=
  match m.free with
  | some b => (({ m with free := m.next b } : Bips).reset b, b)
  | none => (({ m with used := m.used + 1 } : Bips).reset m.used, m.used)

/-- `bip_buffer_free`. -/
def release (m : Bips) (b : ℕ) : Bips := { m.setNext b m.free with free := some b }

end Bips

/-- The chain of a device: `bip_first` and `bip_last`. -/
structure Chardev where
  first : Option ℕ
  last : Option ℕ
  deriving DecidableEq, Repr

/-- The loop of the writes that buffers data, from the last buffer `b` on. -/
def fill : ℕ → Bips → Chardev → ℕ → List UInt8 → Checked (Bips × Chardev)
  | 0, _, _, _, _ => .error .endless
  | rounds + 1, m, dev, b, data => do
    let (cb, len) ← (m.bip b).cb.write data
    let m := m.setCb b cb
    if data.drop len = [] then return (m, dev)
    let (m, b') := m.alloc
    fill rounds (m.setNext b (some b')) { dev with last := some b' } b' (data.drop len)

def bufferData (m : Bips) (dev : Chardev) (data : List UInt8) : Checked (Bips × Chardev) :=
  match dev.last with
  | none => fill (data.length + 1) m.alloc.1 ⟨some m.alloc.2, some m.alloc.2⟩ m.alloc.2 data
  | some b => fill (data.length + 1) m dev b data

/-- A drained buffer leaves the chain. -/
def dropFirst (m : Bips) (dev : Chardev) (b : ℕ) : Bips × Chardev :=
  (m.release b, ⟨m.next b, if m.next b = none then none else dev.last⟩)

/-! ### Devices -/

/-- What a device finds during an operation: whether it has a peer (or an endpoint), which handlers
the peer and itself have, how much the peer can accept, and how much an endpoint has accepted. -/
structure Env where
  hasPeer : Bool
  peerReads : Bool
  peerCanRead : Bool
  ownCanRead : Bool
  canWrite : ℕ → ℕ
  feWrite : ℕ → ℤ

/-- The loop that writes directly to the peer: what is handed over, and what is left. -/
def direct (canRead : Bool) (canWrite : ℕ → ℕ) :
    ℕ → ℕ → List UInt8 → Checked (List UInt8 × List UInt8)
  | 0, _, _ => .error .endless
  | rounds + 1, asked, data =>
    if data = [] then .ok ([], [])
    else if canRead then
      if canWrite asked = 0 then .ok ([], data)
      else do
        let size := min (canWrite asked) data.length
        let (out, rest) ← direct canRead canWrite rounds (asked + 1) (data.drop size)
        return (data.take size ++ out, rest)
    else .ok (data, [])

/-- The direct part of `charpipehalf_write`, for which there must be no buffered data. -/
def pipeDirect (dev : Chardev) (env : Env) (data : List UInt8) :
    Checked (List UInt8 × List UInt8) :=
  if dev.last = none ∧ env.hasPeer = true ∧ env.peerReads = true then
    direct env.peerCanRead env.canWrite (data.length + 1) 0 data
  else .ok ([], data)

/-- The direct part of `charbuffer_write`. -/
def bufferDirect (dev : Chardev) (env : Env) (data : List UInt8) : List UInt8 × List UInt8 :=
  if dev.last = none ∧ env.hasPeer = true then
    let size := min (env.feWrite 0).toNat data.length
    (data.take size, data.drop size)
  else ([], data)

/-- The common end of the writes. -/
def finishWrite (m : Bips) (dev : Chardev) (out rest : List UInt8) :
    Checked (Bips × Chardev × List UInt8) :=
  if rest = [] then .ok (m, dev, out)
  else do
    let (m, dev) ← bufferData m dev rest
    return (m, dev, out)

/-- `charpipehalf_write`, with the bytes handed to the peer. -/
def pipeWrite (m : Bips) (dev : Chardev) (env : Env) (data : List UInt8) :
    Checked (Bips × Chardev × List UInt8) := do
  let (out, rest) ← pipeDirect dev env data
  finishWrite m dev out rest

/-- `charbuffer_write`, with the bytes the endpoint has accepted. -/
def bufferWrite (m : Bips) (dev : Chardev) (env : Env) (data : List UInt8) :
    Checked (Bips × Chardev × List UInt8) :=
  finishWrite m dev (bufferDirect dev env data).1 (bufferDirect dev env data).2

/-- The loop of `charpipehalf_poll`. It looks at its own `can_read` handler before it asks the
peer. -/
def pipePollLoop (env : Env) : ℕ → ℕ → Bips → Chardev → Checked (Bips × Chardev × List UInt8)
  | 0, _, _, _ => .error .endless
  | rounds + 1, asked, m, dev =>
    match dev.first with
    | none => .ok (m, dev, [])
    | some b =>
      let cb := (m.bip b).cb
      if cb.readAvail = 0 then
        pipePollLoop env rounds asked (dropFirst m dev b).1 (dropFirst m dev b).2
      else if env.ownCanRead = true ∧ env.canWrite asked = 0 then .ok (m, dev, [])
      else do
        let size := if env.ownCanRead then min cb.readAvail (env.canWrite asked) else cb.readAvail
        let data := cb.readPeek.take size
        let (m, dev, out) ←
          pipePollLoop env rounds (asked + 1) (m.setCb b (cb.readStep data.length)) dev
        return (m, dev, data ++ out)

def bufferPollLoop (env : Env) : ℕ → ℕ → Bips → Chardev → Checked (Bips × Chardev × List UInt8)
  | 0, _, _, _ => .error .endless
  | rounds + 1, asked, m, dev =>
    match dev.first with
    | none => .ok (m, dev, [])
    | some b =>
      let cb := (m.bip b).cb
      let avail := cb.readPeek.length
      if avail = 0 then
        bufferPollLoop env rounds asked (dropFirst m dev b).1 (dropFirst m dev b).2
      else
        let size := min (env.feWrite asked).toNat avail
        let data := cb.readPeek.take size
        let m := m.setCb b (cb.readStep size)
        if size < avail then .ok (m, dev, data)
        else do
          let (m, dev, out) ← bufferPollLoop env rounds (asked + 1) m dev
          return (m, dev, data ++ out)

/-- As many turns as a poll can take: one for each byte and one for each buffer. -/
def pollRounds (m : Bips) : ℕ := m.used * (bipBufferSize + 1) + 1

/-- `charpipehalf_poll`. -/
def pipePoll (m : Bips) (dev : Chardev) (env : Env) : Checked (Bips × Chardev × List UInt8) :=
  if env.hasPeer = false ∨ env.peerReads = false then .ok (m, dev, [])
  else pipePollLoop env (pollRounds m) 0 m dev

/-- `charbuffer_poll`. -/
def bufferPoll (m : Bips) (dev : Chardev) (env : Env) : Checked (Bips × Chardev × List UInt8) :=
  if env.hasPeer = false then .ok (m, dev, []) else bufferPollLoop env (pollRounds m) 0 m dev

/-! ### The machine -/

inductive Kind
  | pipe
  | buffer
  deriving DecidableEq, Repr

inductive Op (ι : Type)
  | write (d : ι) (env : Env) (data : List UInt8)
  | poll (d : ι) (env : Env)

structure World (ι : Type) where
  mem : Bips
  dev : ι → Chardev

variable {ι : Type}

def Op.device : Op ι → ι
  | .write d _ _ => d
  | .poll d _ => d

def Op.data : Op ι → List UInt8
  | .write _ _ data => data
  | .poll _ _ => []

def Op.apply (kind : Kind) (m : Bips) (dev : Chardev) : Op ι → Checked (Bips × Chardev × List UInt8)
  | .write _ env data =>
    match kind with
    | .pipe => pipeWrite m dev env data
    | .buffer => bufferWrite m dev env data
  | .poll _ env =>
    match kind with
    | .pipe => pipePoll m dev env
    | .buffer => bufferPoll m dev env

variable [DecidableEq ι]

/-- The devices as a machine, which puts out the bytes that are handed over. -/
def step (kind : ι → Kind) (w : World ι) (op : Op ι) : Checked (World ι × List UInt8) := do
  let (mem, dev, out) ← op.apply (kind op.device) w.mem (w.dev op.device)
  return (⟨mem, Function.update w.dev op.device dev⟩, out)

/-- No buffers are in use yet. -/
def start (bip : ℕ → BipBuffer) : World ι := ⟨⟨bip, 0, none⟩, fun _ => ⟨none, none⟩⟩

def written (d : ι) (ops : List (Op ι)) : List UInt8 :=
  (ops.filter (·.device = d)).flatMap Op.data

def delivered (d : ι) (log : List (Op ι × List UInt8)) : List UInt8 :=
  (log.filter (·.1.device = d)).flatMap Prod.snd

/-- What is still buffered in a device: the bytes of the buffers of its chain. -/
def buffered (w : World ι) (d : ι) : List UInt8 :=
  ((follow w.mem.next w.mem.used (w.dev d).first).getD []).flatMap fun b => (w.mem.bip b).cb.bytes

/-! ### Chains -/

def content (m : Bips) (xs : List ℕ) : List UInt8 := xs.flatMap fun b => (m.bip b).cb.bytes

/-- The chain of a device is `xs`, the list of free buffers `fs`. -/
structure Local (m : Bips) (dev : Chardev) (xs fs : List ℕ) : Prop where
  path : Path m.next dev.first xs none
  last : dev.last = xs.getLast?
  valid : ∀ b ∈ xs, (m.bip b).cb.Valid ∧ (m.bip b).cb.size = bipBufferSize
  freePath : Path m.next m.free fs none
  nodup : (xs ++ fs).Nodup
  lt : ∀ b ∈ xs ++ fs, b < m.used

/-- The buffers that a device and the free list have afterwards they had before, or they are new;
and all others are as they were. -/
structure Frame (m : Bips) (own : List ℕ) (m' : Bips) (own' : List ℕ) : Prop where
  used_le : m.used ≤ m'.used
  mem_or : ∀ b ∈ own', b ∈ own ∨ m.used ≤ b
  bip_eq : ∀ b, b < m.used → b ∉ own → m'.bip b = m.bip b

theorem Frame.refl (m : Bips) (own : List ℕ) : Frame m own m own :=
  ⟨le_rfl, fun _ => .inl, fun _ _ _ => rfl⟩

variable {own own' own'' fs' xs1 fs1 xd xd' fs : List ℕ} {m m' m'' m0 m1 : Bips}

theorem Frame.trans (h : Frame m own m' own')
    (h' : Frame m' own' m'' own'') : Frame m own m'' own'' where
  used_le := h.used_le.trans h'.used_le
  mem_or := by
    intro b hb
    rcases h'.mem_or b hb with hb | hb
    · exact h.mem_or b hb
    · exact .inr (h.used_le.trans hb)
  bip_eq := by
    intro b hlt hb
    rw [h'.bip_eq b (hlt.trans_le h.used_le), h.bip_eq b hlt hb]
    intro hb'
    rcases h.mem_or b hb' with hb' | hb'
    · exact hb hb'
    · omega

variable {b c len : ℕ}

theorem Frame.of_update {v : BipBuffer} {free : Option ℕ} (hb : b ∈ own)
    (hown : ∀ c ∈ own', c ∈ own) : Frame m own ⟨Function.update m.bip b v, m.used, free⟩ own' where
  used_le := le_rfl
  mem_or := fun _ hc => .inl (hown _ hc)
  bip_eq := fun _ _ hc => update_of_ne (ne_of_mem_of_not_mem hb hc).symm _ _

variable {data out rest : List UInt8}

section Chain

variable {m : Bips} {dev : Chardev} {xs ys fs : List ℕ} {b : ℕ}

theorem content_append (m : Bips) (xs ys : List ℕ) :
    content m (xs ++ ys) = content m xs ++ content m ys := flatMap_append

theorem content_cons (m : Bips) (b : ℕ) (xs : List ℕ) :
    content m (b :: xs) = (m.bip b).cb.bytes ++ content m xs := flatMap_cons

theorem content_congr (h : ∀ b ∈ xs, (m'.bip b).cb = (m.bip b).cb) :
    content m' xs = content m xs := by
  apply flatMap_congr
  intro b hb
  rw [h b hb]

theorem next_setCb (m : Bips) (b : ℕ) (cb : CBuffer) : (m.setCb b cb).next = m.next := by
  funext c
  by_cases hc : c = b
  · subst hc
    simp [Bips.next, Bips.setCb]
  · simp [Bips.next, Bips.setCb, hc]

theorem cb_setCb_self (m : Bips) (b : ℕ) (cb : CBuffer) : ((m.setCb b cb).bip b).cb = cb := by
  simp [Bips.setCb]

theorem cb_setCb_of_ne (h : c ≠ b) (m : Bips) (cb : CBuffer) :
    ((m.setCb b cb).bip c).cb = (m.bip c).cb := by
  simp [Bips.setCb, h]

theorem Local.setCb (h : Local m dev xs fs) (hb : b ∈ xs) {cb : CBuffer} (hcb : cb.Valid)
    (hsize : cb.size = bipBufferSize) :
    Local (m.setCb b cb) dev xs fs ∧ Frame m (xs ++ fs) (m.setCb b cb) (xs ++ fs) := by
  refine ⟨⟨?_, h.last, ?_, ?_, h.nodup, h.lt⟩, ?_⟩
  · rw [next_setCb]
    exact h.path
  · intro c hc
    by_cases heq : c = b
    · subst heq
      rw [cb_setCb_self]
      exact ⟨hcb, hsize⟩
    · rw [cb_setCb_of_ne heq]
      exact h.valid c hc
  · rw [next_setCb]
    exact h.freePath
  · exact Frame.of_update (mem_append_left _ hb) fun _ => id

theorem Local.content_setCb_first (h : Local m dev (b :: xs) fs) (cb : CBuffer) :
    content (m.setCb b cb) (b :: xs) = cb.bytes ++ content m xs := by
  have hnot : b ∉ xs := (nodup_cons.mp (nodup_append.mp h.nodup).1).1
  rw [content_cons, cb_setCb_self]
  congr 1
  exact content_congr fun c hc => cb_setCb_of_ne (ne_of_mem_of_not_mem hc hnot) m cb

theorem Local.content_setCb_last (h : Local m dev (xs ++ [b]) fs) (cb : CBuffer) :
    content (m.setCb b cb) (xs ++ [b]) = content m xs ++ cb.bytes := by
  have hnot : b ∉ xs := by
    intro hb
    exact (nodup_append.mp (nodup_append.mp h.nodup).1).2.2 b hb b (by simp) rfl
  rw [content_append, content_congr fun c hc => cb_setCb_of_ne (ne_of_mem_of_not_mem hc hnot) m cb,
    content_cons, cb_setCb_self]
  simp [content]

theorem next_setNext_self (m : Bips) (b : ℕ) (next : Option ℕ) :
    (m.setNext b next).next b = next := by
  simp [Bips.next, Bips.setNext]

theorem next_setNext_of_ne (h : c ≠ b) (m : Bips) (next : Option ℕ) :
    (m.setNext b next).next c = m.next c := by
  simp [Bips.next, Bips.setNext, h]

theorem cb_setNext (m : Bips) (b : ℕ) (next : Option ℕ) (c : ℕ) :
    ((m.setNext b next).bip c).cb = (m.bip c).cb := by
  by_cases hc : c = b
  · subst hc
    simp [Bips.setNext]
  · simp [Bips.setNext, hc]

theorem Local.dropFirst (h : Local m dev (b :: xs) fs) (hempty : (m.bip b).cb.bytes = []) :
    Local (dropFirst m dev b).1 (dropFirst m dev b).2 xs (b :: fs) ∧
      Frame m (b :: xs ++ fs) (Glue.dropFirst m dev b).1 (xs ++ b :: fs) ∧
      content (Glue.dropFirst m dev b).1 xs = content m (b :: xs) := by
  have hnodup := h.nodup
  rw [cons_append, nodup_cons, mem_append, not_or] at hnodup
  obtain ⟨⟨hxs, hfs⟩, hrest⟩ := hnodup
  obtain ⟨_, hpath⟩ := h.path
  have hperm : (xs ++ b :: fs).Perm (b :: xs ++ fs) := perm_middle
  refine ⟨⟨?_, ?_, ?_, ⟨rfl, ?_⟩, hperm.nodup_iff.mpr h.nodup, ?_⟩, ?_, ?_⟩
  · exact hpath.congr fun c hc => next_setNext_of_ne (ne_of_mem_of_not_mem hc hxs) m _
  · -- with the last buffer the chain ends
    change (if m.next b = none then none else dev.last) = xs.getLast?
    cases xs with
    | nil =>
      have hend : m.next b = none := hpath
      rw [if_pos hend]
      rfl
    | cons c xs =>
      rw [if_neg (by rw [hpath.1]; simp), h.last, getLast?_cons_cons]
  · intro c hc
    have hcb := cb_setNext m b m.free c
    change ((m.setNext b m.free).bip c).cb.Valid ∧ ((m.setNext b m.free).bip c).cb.size = _
    rw [hcb]
    exact h.valid c (mem_cons_of_mem b hc)
  · change Path (m.setNext b m.free).next ((m.setNext b m.free).next b) fs none
    rw [next_setNext_self]
    exact h.freePath.congr fun c hc => next_setNext_of_ne (ne_of_mem_of_not_mem hc hfs) m _
  · exact fun c hc => h.lt c (hperm.mem_iff.mp hc)
  · exact Frame.of_update mem_cons_self fun c hc => hperm.mem_iff.mp hc
  · rw [content_cons, hempty, nil_append]
    exact content_congr fun c _ => cb_setNext m b m.free c

/-- A new buffer `b` is taken off the free list or was never used. It is empty, and nothing else
changes. -/
structure Allocates (m : Bips) (xs fs : List ℕ) (m' : Bips) (b : ℕ) (fs' : List ℕ) : Prop where
  next_eq : m'.next b = none
  valid : (m'.bip b).cb.Valid
  size_eq : (m'.bip b).cb.size = bipBufferSize
  bytes_eq : (m'.bip b).cb.bytes = []
  bip_eq : ∀ c, c ≠ b → m'.bip c = m.bip c
  freePath : Path m'.next m'.free fs' none
  nodup : (xs ++ b :: fs').Nodup
  lt : ∀ c ∈ xs ++ b :: fs', c < m'.used
  frame : Frame m (xs ++ fs) m' (xs ++ b :: fs')

theorem Allocates.of_reset (hbip : m0.bip = m.bip) (hfree : Path m.next m0.free fs' none)
    (hnodup : (xs ++ b :: fs').Nodup) (hlt : ∀ c ∈ xs ++ b :: fs', c < m0.used)
    (hused : m.used ≤ m0.used) (hmem : ∀ c ∈ xs ++ b :: fs', c ∈ xs ++ fs ∨ m.used ≤ c)
    (hb : b ∈ xs ++ fs ∨ m.used ≤ b) : Allocates m xs fs (m0.reset b) b fs' := by
  have hself : (m0.reset b).bip b = ⟨none, .reset (m0.bip b).cb.buff bipBufferSize⟩ :=
    update_self _ _ _
  have hother : ∀ c, c ≠ b → (m0.reset b).bip c = m.bip c := by
    intro c hc
    rw [← hbip]
    exact update_of_ne hc _ _
  have hnot : b ∉ fs' := (nodup_cons.mp (nodup_append.mp hnodup).2.1).1
  refine ⟨?_, ?_, ?_, ?_, hother, ?_, hnodup, hlt, hused, hmem, ?_⟩
  · rw [Bips.next, hself]
  · rw [hself]
    exact valid_reset _ (by decide)
  · rw [hself]
    rfl
  · rw [hself]
    rfl
  · refine hfree.congr fun c hc => ?_
    rw [Bips.next, hother c (ne_of_mem_of_not_mem hc hnot)]
    rfl
  · intro c hc hown
    apply hother
    rintro rfl
    rcases hb with hb | hb
    · exact hown hb
    · omega

theorem Local.alloc (h : Local m dev xs fs) : ∃ fs', Allocates m xs fs m.alloc.1 m.alloc.2 fs' := by
  have hfree := h.freePath
  unfold Bips.alloc
  cases hm : m.free with
  | some b =>
    rw [hm] at hfree
    cases fs with
    | nil => cases hfree
    | cons c fs =>
      obtain ⟨hc, hrest⟩ := hfree
      obtain rfl : b = c := Option.some.inj hc
      exact ⟨fs, .of_reset rfl hrest h.nodup h.lt le_rfl (fun _ => .inl) (.inl (by simp))⟩
  | none =>
    rw [hm] at hfree
    cases fs with
    | cons c fs => cases hfree.1
    | nil =>
      -- a buffer that was never used is none of the others
      have hnot : m.used ∉ xs := fun hmem => (h.lt _ (mem_append_left _ hmem)).false
      have hxs : xs.Nodup := (nodup_append.mp h.nodup).1
      refine ⟨[], .of_reset rfl ?_ ?_ ?_ (Nat.le_succ _) ?_ (.inr le_rfl)⟩
      · rfl
      · rw [nodup_append]
        refine ⟨hxs, nodup_singleton _, ?_⟩
        intro c hc d hd
        rw [mem_singleton.mp hd]
        exact ne_of_mem_of_not_mem hc hnot
      · intro c hc
        rcases mem_append.mp hc with hc | hc
        · exact (h.lt c (mem_append_left _ hc)).trans (Nat.lt_succ_self _)
        · rw [mem_singleton.mp hc]
          exact Nat.lt_succ_self _
      · intro c hc
        rcases mem_append.mp hc with hc | hc
        · exact .inl (mem_append_left _ hc)
        · exact .inr (mem_singleton.mp hc).ge

theorem Local.begin (h : Local m dev [] fs) :
    ∃ fs', Local m.alloc.1 ⟨some m.alloc.2, some m.alloc.2⟩ [m.alloc.2] fs' ∧
      Frame m ([] ++ fs) m.alloc.1 ([m.alloc.2] ++ fs') ∧ content m.alloc.1 [m.alloc.2] = [] := by
  obtain ⟨fs', ha⟩ := h.alloc
  refine ⟨fs', ⟨⟨rfl, ha.next_eq⟩, rfl, ?_, ha.freePath, ha.nodup, ha.lt⟩, ha.frame, ?_⟩
  · intro c hc
    rw [mem_singleton.mp hc]
    exact ⟨ha.valid, ha.size_eq⟩
  · rw [content_cons, ha.bytes_eq]
    rfl

theorem Local.extend (h : Local m dev (xs ++ [b]) fs) :
    ∃ fs', Local (m.alloc.1.setNext b (some m.alloc.2)) { dev with last := some m.alloc.2 }
        (xs ++ [b] ++ [m.alloc.2]) fs' ∧
      Frame m (xs ++ [b] ++ fs) (m.alloc.1.setNext b (some m.alloc.2))
        (xs ++ [b] ++ [m.alloc.2] ++ fs') ∧
      content (m.alloc.1.setNext b (some m.alloc.2)) (xs ++ [b] ++ [m.alloc.2]) =
        content m (xs ++ [b]) ∧
      ((m.alloc.1.setNext b (some m.alloc.2)).bip m.alloc.2).cb.bytes = [] := by
  obtain ⟨fs', ha⟩ := h.alloc
  set m' := m.alloc.1
  set b' := m.alloc.2
  have hassoc : xs ++ [b] ++ [b'] ++ fs' = xs ++ [b] ++ b' :: fs' := by simp
  obtain ⟨hys, hcons, hdisj⟩ := nodup_append.mp ha.nodup
  have hnot : b ∉ xs := fun hb => (nodup_append.mp hys).2.2 b hb b (by simp) rfl
  have hne : b' ≠ b := (hdisj b (by simp) b' (by simp)).symm
  have hfs' : b ∉ fs' := fun hb => hdisj b (by simp) b (by simp [hb]) rfl
  -- links and contents of the old buffers
  have hnext : ∀ c ∈ xs, (m'.setNext b (some b')).next c = m.next c := by
    intro c hc
    rw [next_setNext_of_ne (ne_of_mem_of_not_mem hc hnot), Bips.next,
      ha.bip_eq c (hdisj c (by simp [hc]) b' (by simp))]
    rfl
  have hcb : ∀ c ∈ xs ++ [b], ((m'.setNext b (some b')).bip c).cb = (m.bip c).cb := by
    intro c hc
    rw [cb_setNext, ha.bip_eq c (hdisj c hc b' (by simp))]
  obtain ⟨mid, hpath, hmid, _⟩ := Path.append_iff.mp h.path
  refine ⟨fs', ⟨?_, ?_, ?_, ?_, ?_, ?_⟩, ?_, ?_, ?_⟩
  · rw [append_assoc]
    refine (hpath.congr hnext).append ⟨hmid, ?_⟩
    rw [next_setNext_self]
    refine ⟨rfl, ?_⟩
    rw [next_setNext_of_ne hne]
    exact ha.next_eq
  · exact (getLast?_concat ..).symm
  · intro c hc
    rcases mem_append.mp hc with hc | hc
    · rw [hcb c hc]
      exact h.valid c hc
    · rw [mem_singleton.mp hc, cb_setNext]
      exact ⟨ha.valid, ha.size_eq⟩
  · exact ha.freePath.congr fun c hc => next_setNext_of_ne (ne_of_mem_of_not_mem hc hfs') m' _
  · rw [hassoc]
    exact ha.nodup
  · rw [hassoc]
    exact ha.lt
  · rw [hassoc]
    exact ha.frame.trans (Frame.of_update (by simp) fun _ => id)
  · rw [content_append, content_congr hcb, content_cons, cb_setNext, ha.bytes_eq]
    exact append_nil _
  · rw [cb_setNext]
    exact ha.bytes_eq

theorem Local.fill (rounds : ℕ) : ∀ {m : Bips} {dev : Chardev} {xs fs : List ℕ} {b : ℕ}
    {data : List UInt8}, Local m dev (xs ++ [b]) fs →
    data.length + (if (m.bip b).cb.count = bipBufferSize then 1 else 0) ≤ rounds → data ≠ [] →
    ∃ m' dev' xs' fs', fill rounds m dev b data = .ok (m', dev') ∧ Local m' dev' xs' fs' ∧
      Frame m (xs ++ [b] ++ fs) m' (xs' ++ fs') ∧
      content m' xs' = content m (xs ++ [b]) ++ data := by
  induction rounds with
  | zero =>
    intro m dev xs fs b data _ hrounds hdata
    have := length_pos_iff.mpr hdata
    omega
  | succ rounds ih =>
    intro m dev xs fs b data h hrounds hdata
    obtain ⟨hvalid, hsize⟩ := h.valid b (by simp)
    obtain ⟨cb, hwrite, hvalid', hsize', hbytes⟩ := hvalid.write data
    set len := min data.length ((m.bip b).cb.size - (m.bip b).cb.count) with hlen
    have hcount := hvalid.count_le
    obtain ⟨h1, hframe1⟩ := h.setCb (mem_append_right xs (mem_singleton_self b)) hvalid'
      (hsize'.trans hsize)
    have hcontent1 : content (m.setCb b cb) (xs ++ [b]) =
        content m (xs ++ [b]) ++ data.take len := by
      rw [h.content_setCb_last cb, hbytes]
      simp [content]
    rw [Glue.fill, hwrite, Checked.ok_bind]
    simp only
    by_cases hrest : data.drop len = []
    · rw [if_pos hrest]
      refine ⟨_, dev, _, fs, rfl, h1, hframe1, ?_⟩
      rw [hcontent1, take_of_length_le (drop_eq_nil_iff.mp hrest)]
    rw [if_neg hrest]
    obtain ⟨fs', h2, hframe2, hcontent2, hempty⟩ := h1.extend
    -- the new buffer has room, and the old one took something unless it was full
    have hnew : data.length - len ≤ rounds := by
      split_ifs at hrounds <;> omega
    have hroom : ¬ ((((m.setCb b cb).alloc.1.setNext b (some (m.setCb b cb).alloc.2)).bip
        (m.setCb b cb).alloc.2).cb.count = bipBufferSize) := by
      rw [← length_bytes, hempty]
      decide
    obtain ⟨m', dev', xs', fs'', hfill, h3, hframe3, hcontent3⟩ :=
      ih h2 (by rw [if_neg hroom, length_drop]; exact hnew) hrest
    refine ⟨m', dev', xs', fs'', hfill, h3, hframe1.trans (hframe2.trans hframe3), ?_⟩
    rw [hcontent3, hcontent2, hcontent1, append_assoc, take_append_drop]

theorem Local.bufferData (h : Local m dev xs fs) (hdata : data ≠ []) :
    ∃ m' dev' xs' fs', bufferData m dev data = .ok (m', dev') ∧ Local m' dev' xs' fs' ∧
      Frame m (xs ++ fs) m' (xs' ++ fs') ∧ content m' xs' = content m xs ++ data := by
  unfold Glue.bufferData
  rw [h.last]
  rcases eq_nil_or_concat' xs with rfl | ⟨ys, b, rfl⟩
  · obtain ⟨fs', h1, hframe1, hcontent1⟩ := h.begin
    have h₁' : Local m.alloc.1 ⟨some m.alloc.2, some m.alloc.2⟩ ([] ++ [m.alloc.2]) fs' := h1
    obtain ⟨m', dev', xs', fs'', hfill, h2, hframe2, hcontent2⟩ :=
      Local.fill (data.length + 1) h₁' (by split_ifs <;> omega) hdata
    refine ⟨m', dev', xs', fs'', hfill, h2, hframe1.trans hframe2, ?_⟩
    rw [hcontent2]
    exact congrArg (· ++ data) hcontent1
  · rw [getLast?_concat]
    exact Local.fill (data.length + 1) h (by split_ifs <;> omega) hdata

/-! ### Operations -/

/-- An operation on the device with the chain `xs` that writes `data`: it succeeds, the bytes that
were there and those written are handed over in order or still there, and no other device changes.
-/
def Serves (m : Bips) (xs fs : List ℕ) (data : List UInt8)
    (r : Checked (Bips × Chardev × List UInt8)) : Prop :=
  ∃ m' dev' out xs' fs', r = .ok (m', dev', out) ∧ Local m' dev' xs' fs' ∧
    Frame m (xs ++ fs) m' (xs' ++ fs') ∧ content m xs ++ data = out ++ content m' xs'

theorem Serves.idle (h : Local m dev xs fs) : Serves m xs fs [] (.ok (m, dev, [])) :=
  ⟨m, dev, [], xs, fs, rfl, h, Frame.refl _ _, by simp⟩

variable {r : Checked (Bips × Chardev × List UInt8)}

theorem Serves.after (hframe : Frame m (xs ++ fs) m1 (xs1 ++ fs1))
    (hcontent : content m xs = out ++ content m1 xs1) (h : Serves m1 xs1 fs1 [] r) :
    Serves m xs fs [] (do
      let (m, dev, out') ← r
      return (m, dev, out ++ out')) := by
  obtain ⟨m', dev', out', xs', fs', rfl, hlocal, hframe', hcontent'⟩ := h
  refine ⟨m', dev', out ++ out', xs', fs', rfl, hlocal, hframe.trans hframe', ?_⟩
  rw [append_nil] at hcontent' ⊢
  rw [hcontent, hcontent', append_assoc]

theorem Serves.after_dropFirst (h : Local m dev (b :: xs) fs) (hempty : (m.bip b).cb.bytes = [])
    (hr : Serves (Glue.dropFirst m dev b).1 xs (b :: fs) [] r) : Serves m (b :: xs) fs [] r := by
  obtain ⟨m', dev', out', xs', fs', heq, hlocal, hframe', hcontent'⟩ := hr
  obtain ⟨_, hframe, hcontent⟩ := h.dropFirst hempty
  refine ⟨m', dev', out', xs', fs', heq, hlocal, hframe.trans hframe', ?_⟩
  rw [← hcontent, hcontent']

theorem Local.readStep (h : Local m dev (b :: xs) fs) (hlen : len ≤ (m.bip b).cb.readPeek.length) :
    Local (m.setCb b ((m.bip b).cb.readStep len)) dev (b :: xs) fs ∧
      Frame m (b :: xs ++ fs) (m.setCb b ((m.bip b).cb.readStep len)) (b :: xs ++ fs) ∧
      content m (b :: xs) = (m.bip b).cb.readPeek.take len ++
        content (m.setCb b ((m.bip b).cb.readStep len)) (b :: xs) := by
  obtain ⟨hvalid, hsize⟩ := h.valid b mem_cons_self
  obtain ⟨hpeek, hle, _⟩ := readPeek_eq hvalid
  obtain ⟨hvalid', hbytes⟩ := hvalid.readStep (hlen.trans hle)
  obtain ⟨hlocal, hframe⟩ := h.setCb mem_cons_self hvalid' hsize
  refine ⟨hlocal, hframe, ?_⟩
  rw [h.content_setCb_first, hbytes, content_cons, hpeek, take_take, min_eq_left hlen,
    ← append_assoc, take_append_drop]

theorem Local.first_cases (h : Local m dev xs fs) :
    (dev.first = none ∧ xs = []) ∨ ∃ b ys, dev.first = some b ∧ xs = b :: ys := by
  cases xs with
  | nil => exact .inl ⟨h.path, rfl⟩
  | cons b ys => exact .inr ⟨b, ys, h.path.1, rfl⟩

open Serves

theorem Local.pipePollLoop (env : Env) (rounds : ℕ) : ∀ (asked : ℕ) {m : Bips} {dev : Chardev}
    {xs fs : List ℕ}, Local m dev xs fs → (content m xs).length + xs.length < rounds →
    Serves m xs fs [] (pipePollLoop env rounds asked m dev) := by
  induction rounds with
  | zero => exact fun _ _ _ _ _ _ h => absurd h (by omega)
  | succ rounds ih =>
    intro asked m dev xs fs h hrounds
    unfold Glue.pipePollLoop
    rcases h.first_cases with ⟨hfirst, rfl⟩ | ⟨b, ys, hfirst, rfl⟩
    · rw [hfirst]
      exact idle h
    rw [hfirst]
    simp only
    obtain ⟨_, hle, hpeek⟩ := readPeek_eq (h.valid b mem_cons_self).1
    by_cases hempty : (m.bip b).cb.readAvail = 0
    · rw [if_pos hempty]
      have hbytes : (m.bip b).cb.bytes = [] :=
        length_eq_zero_iff.mp (((m.bip b).cb.length_bytes).trans hempty)
      obtain ⟨hlocal, _, hcontent⟩ := h.dropFirst hbytes
      refine after_dropFirst h hbytes (ih asked hlocal ?_)
      rw [hcontent]
      simp only [length_cons] at hrounds
      omega
    rw [if_neg hempty]
    by_cases hrefused : env.ownCanRead = true ∧ env.canWrite asked = 0
    · rw [if_pos hrefused]
      exact idle h
    rw [if_neg hrefused]
    set size := if env.ownCanRead then min (m.bip b).cb.readAvail (env.canWrite asked)
      else (m.bip b).cb.readAvail with hsize
    have hsize_pos : 0 < size := by
      rw [hsize]
      split_ifs with hown
      · have : env.canWrite asked ≠ 0 := fun h => hrefused ⟨hown, h⟩
        omega
      · omega
    -- a positive number of bytes is handed over
    set len := ((m.bip b).cb.readPeek.take size).length with hlen
    have hlen_eq : len = min size (m.bip b).cb.readPeek.length := length_take
    have hpos : 0 < (m.bip b).cb.readPeek.length := hpeek (Nat.pos_of_ne_zero hempty)
    have hlen_le : len ≤ (m.bip b).cb.readPeek.length := by omega
    obtain ⟨hlocal, hframe, hcontent⟩ := h.readStep hlen_le
    have htake : (m.bip b).cb.readPeek.take len = (m.bip b).cb.readPeek.take size :=
      take_eq_take_iff.mpr (by omega)
    rw [htake] at hcontent
    refine after hframe hcontent (ih (asked + 1) hlocal ?_)
    have hless := congrArg List.length hcontent
    rw [length_append] at hless
    omega

theorem Local.bufferPollLoop (env : Env) (rounds : ℕ) : ∀ (asked : ℕ) {m : Bips} {dev : Chardev}
    {xs fs : List ℕ}, Local m dev xs fs → (content m xs).length + xs.length < rounds →
    Serves m xs fs [] (bufferPollLoop env rounds asked m dev) := by
  induction rounds with
  | zero => exact fun _ _ _ _ _ _ h => absurd h (by omega)
  | succ rounds ih =>
    intro asked m dev xs fs h hrounds
    unfold Glue.bufferPollLoop
    rcases h.first_cases with ⟨hfirst, rfl⟩ | ⟨b, ys, hfirst, rfl⟩
    · rw [hfirst]
      exact idle h
    rw [hfirst]
    simp only
    obtain ⟨_, hle, hpeek⟩ := readPeek_eq (h.valid b mem_cons_self).1
    by_cases hempty : (m.bip b).cb.readPeek.length = 0
    · rw [if_pos hempty]
      have hbytes : (m.bip b).cb.bytes = [] := by
        rw [← length_eq_zero_iff, length_bytes]
        omega
      obtain ⟨hlocal, _, hcontent⟩ := h.dropFirst hbytes
      refine after_dropFirst h hbytes (ih asked hlocal ?_)
      rw [hcontent]
      simp only [length_cons] at hrounds
      omega
    rw [if_neg hempty]
    set size := min (env.feWrite asked).toNat (m.bip b).cb.readPeek.length with hsize
    have hsize_le : size ≤ (m.bip b).cb.readPeek.length := min_le_right _ _
    obtain ⟨hlocal, hframe, hcontent⟩ := h.readStep hsize_le
    by_cases hshort : size < (m.bip b).cb.readPeek.length
    · rw [if_pos hshort]
      exact ⟨_, dev, _, _, fs, rfl, hlocal, hframe, by rw [append_nil]; exact hcontent⟩
    rw [if_neg hshort]
    refine after hframe hcontent (ih (asked + 1) hlocal ?_)
    have hless := congrArg List.length hcontent
    rw [length_append, length_take_of_le hsize_le] at hless
    omega

section

variable (h : Local m dev xs fs)

include h

theorem Local.length_le_used : xs.length ≤ m.used := by
  have hnodup : xs.Nodup := (nodup_append.mp h.nodup).1
  have hsub : xs ⊆ List.range m.used := fun b hb =>
    mem_range.mpr (h.lt b (mem_append_left fs hb))
  simpa using (hnodup.subperm hsub).length_le

theorem Local.lt_pollRounds : (content m xs).length + xs.length < pollRounds m := by
  have hbytes : (content m xs).length ≤ xs.length * bipBufferSize := by
    rw [content, length_flatMap]
    refine (sum_le_card_nsmul _ bipBufferSize ?_).trans_eq (by simp)
    intro n hn
    obtain ⟨b, hb, rfl⟩ := List.mem_map.mp hn
    obtain ⟨hvalid, hsize⟩ := h.valid b hb
    rw [length_bytes, ← hsize]
    exact hvalid.count_le
  have hmul := Nat.mul_le_mul_right (bipBufferSize + 1) h.length_le_used
  unfold pollRounds
  rw [Nat.mul_succ] at hmul
  omega

theorem Local.pipePoll (env : Env) : Serves m xs fs [] (pipePoll m dev env) := by
  unfold Glue.pipePoll
  split_ifs
  · exact idle h
  · exact h.pipePollLoop env _ 0 h.lt_pollRounds

theorem Local.bufferPoll (env : Env) : Serves m xs fs [] (bufferPoll m dev env) := by
  unfold Glue.bufferPoll
  split_ifs
  · exact idle h
  · exact h.bufferPollLoop env _ 0 h.lt_pollRounds

omit h in
theorem direct_eq (canRead : Bool) (canWrite : ℕ → ℕ) (rounds : ℕ) :
    ∀ (asked : ℕ) {data : List UInt8}, data.length < rounds →
      ∃ out rest, direct canRead canWrite rounds asked data = .ok (out, rest) ∧
        data = out ++ rest := by
  induction rounds with
  | zero => exact fun _ _ h => absurd h (by omega)
  | succ rounds ih =>
    intro asked data hrounds
    unfold direct
    split_ifs with hdata hcan hrefused
    · exact ⟨[], [], rfl, hdata⟩
    · exact ⟨[], data, rfl, rfl⟩
    · have hpos : 0 < data.length := length_pos_iff.mpr hdata
      have hless : (data.drop (min (canWrite asked) data.length)).length < rounds := by
        rw [length_drop]
        omega
      obtain ⟨out, rest, hdirect, hsplit⟩ := ih (asked + 1) hless
      refine ⟨data.take (min (canWrite asked) data.length) ++ out, rest, ?_, ?_⟩
      · simp only [hdirect, Checked.ok_bind]
        rfl
      · rw [append_assoc, ← hsplit, take_append_drop]
    · exact ⟨data, [], rfl, (append_nil _).symm⟩

/-- What is not handed over directly is buffered. Only a device without buffers hands anything over
directly. -/
theorem Local.finishWrite (hsplit : data = out ++ rest) (hout : out = [] ∨ xs = []) :
    Serves m xs fs data (finishWrite m dev out rest) := by
  have hfront : content m xs ++ out = out ++ content m xs := by
    rcases hout with rfl | rfl
    · simp
    · simp [content]
  unfold Glue.finishWrite
  split_ifs with hrest
  · subst hrest
    refine ⟨m, dev, out, xs, fs, rfl, h, Frame.refl _ _, ?_⟩
    rw [hsplit, append_nil, hfront]
  · obtain ⟨m', dev', xs', fs', hbuffer, hlocal, hframe, hcontent⟩ := h.bufferData hrest
    refine ⟨m', dev', out, xs', fs', ?_, hlocal, hframe, ?_⟩
    · rw [hbuffer]
      rfl
    · rw [hcontent, hsplit, ← append_assoc, hfront, append_assoc]

theorem Local.eq_nil_of_last (hlast : dev.last = none) : xs = [] :=
  getLast?_eq_none_iff.mp (h.last ▸ hlast)

theorem Local.pipeWrite (env : Env) (data : List UInt8) :
    Serves m xs fs data (pipeWrite m dev env data) := by
  unfold Glue.pipeWrite pipeDirect
  split_ifs with hdirect
  · obtain ⟨out, rest, heq, hsplit⟩ :=
      direct_eq env.peerCanRead env.canWrite (data.length + 1) 0 (Nat.lt_succ_self data.length)
    rw [heq]
    exact h.finishWrite hsplit (.inr (h.eq_nil_of_last hdirect.1))
  · exact h.finishWrite rfl (.inl rfl)

theorem Local.bufferWrite (env : Env) (data : List UInt8) :
    Serves m xs fs data (bufferWrite m dev env data) := by
  unfold Glue.bufferWrite bufferDirect
  split_ifs with hdirect
  · exact h.finishWrite (take_append_drop _ data).symm (.inr (h.eq_nil_of_last hdirect.1))
  · exact h.finishWrite rfl (.inl rfl)

theorem Local.apply {ι : Type} (kind : Kind) (op : Op ι) :
    Serves m xs fs op.data (op.apply kind m dev) := by
  cases op with
  | write d env data =>
    cases kind with
    | pipe => exact h.pipeWrite env data
    | buffer => exact h.bufferWrite env data
  | poll d env =>
    cases kind with
    | pipe => exact h.pipePoll env
    | buffer => exact h.bufferPoll env

theorem Local.frame {devd' : Chardev} (hdisj : xs.Disjoint xd)
    (hframe : Frame m (xd ++ fs) m' (xd' ++ fs'))
    (hd : Local m' devd' xd' fs') :
    Local m' dev xs fs' ∧ content m' xs = content m xs ∧ xs.Disjoint xd' := by
  have hlt : ∀ c ∈ xs, c < m.used := fun c hc => h.lt c (mem_append_left fs hc)
  obtain ⟨hxs, _, hfs⟩ := nodup_append.mp h.nodup
  have hnot : ∀ c ∈ xs, c ∉ xd ++ fs := by
    intro c hc hmem
    rcases mem_append.mp hmem with hmem | hmem
    · exact hdisj hc hmem
    · exact hfs c hc c hmem rfl
  have hnot' : ∀ c ∈ xs, c ∉ xd' ++ fs' := by
    intro c hc hmem
    rcases hframe.mem_or c hmem with hmem | hmem
    · exact hnot c hc hmem
    · exact absurd (hlt c hc) (by omega)
  have hbip : ∀ c ∈ xs, m'.bip c = m.bip c := fun c hc =>
    hframe.bip_eq c (hlt c hc) (hnot c hc)
  refine ⟨⟨?_, h.last, ?_, hd.freePath, ?_, ?_⟩, ?_, ?_⟩
  · refine h.path.congr fun c hc => ?_
    rw [Bips.next, hbip c hc]
    rfl
  · intro c hc
    rw [hbip c hc]
    exact h.valid c hc
  · refine nodup_append.mpr ⟨hxs, (nodup_append.mp hd.nodup).2.1, ?_⟩
    rintro c hc _ hmem rfl
    exact hnot' c hc (mem_append_right _ hmem)
  · intro c hc
    rcases mem_append.mp hc with hc | hc
    · exact (hlt c hc).trans_le hframe.used_le
    · exact hd.lt c (mem_append_right _ hc)
  · exact content_congr fun c hc => by rw [hbip c hc]
  · exact fun c hc hmem => hnot' c hc (mem_append_left _ hmem)

end

end Chain

/-! ### Runs -/

/-- Each device has its own chain, and all have one free list. -/
structure Holds (w : World ι) (xs : ι → List ℕ) (fs : List ℕ) : Prop where
  chain : ∀ d, Local w.mem (w.dev d) (xs d) fs
  disjoint : ∀ d e, d ≠ e → (xs d).Disjoint (xs e)

omit [DecidableEq ι] in
theorem holds_start (bip : ℕ → BipBuffer) : Holds (start bip : World ι) (fun _ => []) [] where
  chain _ := ⟨rfl, rfl, by simp, rfl, by simp, by simp⟩
  disjoint _ _ _ := disjoint_nil_left _

variable {w : World ι} {xs : ι → List ℕ}

omit [DecidableEq ι] in
theorem Holds.buffered_eq (h : Holds w xs fs) (d : ι) : buffered w d = content w.mem (xs d) := by
  rw [buffered, (h.chain d).path.follow_eq (h.chain d).length_le_used]
  rfl

theorem Holds.step (h : Holds w xs fs) (kind : ι → Kind)
    (op : Op ι) : ∃ w' out xs' fs', step kind w op = .ok (w', out) ∧ Holds w' xs' fs' ∧
      content w.mem (xs op.device) ++ op.data = out ++ content w'.mem (xs' op.device) ∧
      ∀ d, d ≠ op.device → content w'.mem (xs' d) = content w.mem (xs d) := by
  set d0 := op.device with hd0
  obtain ⟨m', dev', out, xs0, fs', heq, hlocal, hframe, hcontent⟩ :=
    (h.chain d0).apply (kind d0) op
  have hothers : ∀ d, d ≠ d0 → Local m' (w.dev d) (xs d) fs' ∧
      content m' (xs d) = content w.mem (xs d) ∧ (xs d).Disjoint xs0 := fun d hd =>
    (h.chain d).frame (h.disjoint d d0 hd) hframe hlocal
  refine ⟨⟨m', Function.update w.dev d0 dev'⟩, out, Function.update xs d0 xs0, fs', ?_, ⟨?_, ?_⟩,
    ?_, ?_⟩
  · unfold Glue.step
    rw [heq]
    rfl
  · intro d
    by_cases hd : d = d0
    · subst hd
      simp only [update_self]
      exact hlocal
    · simp only [update_of_ne hd]
      exact (hothers d hd).1
  · intro d e hne
    by_cases hd : d = d0
    · subst hd
      rw [update_self, update_of_ne (Ne.symm hne)]
      exact (hothers e (Ne.symm hne)).2.2.symm
    rw [update_of_ne hd]
    by_cases he : e = d0
    · subst he
      rw [update_self]
      exact (hothers d hd).2.2
    · rw [update_of_ne he]
      exact h.disjoint d e hne
  · rw [update_self]
    exact hcontent
  · intro d hd
    rw [update_of_ne hd]
    exact (hothers d hd).2.1

/-- What was written is what was handed over and what the chains hold. -/
structure Accounts (ops : List (Op ι)) (outs : List (List UInt8)) (w : World ι) : Prop where
  length_eq : ops.length = outs.length
  holds : ∃ xs fs, Holds w xs fs ∧
    ∀ d, written d ops = delivered d (ops.zip outs) ++ content w.mem (xs d)

theorem written_concat (d : ι) (ops : List (Op ι)) (op : Op ι) :
    written d (ops ++ [op]) = written d ops ++ if op.device = d then op.data else [] := by
  unfold written
  split_ifs with hd <;> simp [hd]

theorem delivered_concat (d : ι) (log : List (Op ι × List UInt8)) (op : Op ι) (out : List UInt8) :
    delivered d (log ++ [(op, out)]) = delivered d log ++ if op.device = d then out else [] := by
  unfold delivered
  split_ifs with hd <;> simp [hd]

theorem Accounts.step {ops : List (Op ι)} {outs : List (List UInt8)}
    (h : Accounts ops outs w) (kind : ι → Kind) (op : Op ι) :
    ∃ w' out, step kind w op = .ok (w', out) ∧ Accounts (ops ++ [op]) (outs ++ [out]) w' := by
  obtain ⟨xs, fs, hholds, hbooks⟩ := h.holds
  obtain ⟨w', out, xs', fs', hstep, hholds', hown, hothers⟩ := hholds.step kind op
  refine ⟨w', out, hstep, by simp [h.length_eq], xs', fs', hholds', fun d => ?_⟩
  rw [zip_append h.length_eq, written_concat, zip_cons_cons, zip_nil_right,
    delivered_concat, hbooks d]
  by_cases hd : op.device = d
  · subst hd
    rw [if_pos rfl, if_pos rfl, append_assoc, hown, append_assoc]
  · rw [if_neg hd, if_neg hd, append_nil, append_nil, hothers d (Ne.symm hd)]

/-- After any operations of any number of devices of both kinds, whatever the peers and endpoints
answer, what was written to a device is what it has handed over followed by what it has still
buffered. -/
theorem written_eq_delivered_append_buffered (kind : ι → Kind) (bip : ℕ → BipBuffer)
    (ops : List (Op ι)) : ∃ w, (run (step kind) (start bip) ops).2 = .ok w ∧ ∀ d, written d ops =
        delivered d (ops.zip (run (step kind) (start bip) ops).1) ++ buffered w d := by
  have hstart : Accounts [] [] (start bip : World ι) :=
    ⟨rfl, _, _, holds_start bip, fun _ => rfl⟩
  have hmeets : Meets (step kind) (fun _ _ => True) (start bip) ops :=
    meets_of_forall ops _ fun _ _ _ => trivial
  obtain ⟨w, hrun, hend⟩ :=
    run_history (P := Accounts) (fun _ _ _ op h _ => h.step kind op) ops [] [] hstart hmeets
  refine ⟨w, hrun, fun d => ?_⟩
  obtain ⟨xs, fs, hholds, hbooks⟩ := hend.holds
  rw [hholds.buffered_eq]
  exact hbooks d

/-- No operation fails, and after any operations each chain follows the links to its last buffer,
the buffers in it are valid, and none is in another chain or in the free list. -/
theorem chains_apart (kind : ι → Kind) (bip : ℕ → BipBuffer) (ops : List (Op ι)) :
    ∃ w xs fs, (run (step kind) (start bip) ops).2 = .ok w ∧ Holds w xs fs := by
  have hmeets : Meets (step kind) (fun _ _ => True) (start bip) ops :=
    meets_of_forall ops _ fun _ _ _ => trivial
  have hstep (w : World ι) (op : Op ι) (h : ∃ xs fs, Holds w xs fs) (_ : True) :
      ∃ w' out, step kind w op = .ok (w', out) ∧ ∃ xs fs, Holds w' xs fs := by
    obtain ⟨xs, fs, h⟩ := h
    obtain ⟨w', out, xs', fs', hstep, h', -⟩ := h.step kind op
    exact ⟨w', out, hstep, xs', fs', h'⟩
  obtain ⟨w, hrun, xs, fs, h⟩ := run_ok_of_meets hstep ops ⟨_, _, holds_start bip⟩ hmeets
  exact ⟨w, xs, fs, hrun, h⟩

end AndroidEmu.Glue
