import AndroidEmu.Pipe.Device

/-!
# Safety of transfers

The loop over the buffers is described by `anchors`, the entries that are really mapped, and
`placed`, the buffers that come out. A transfer is faithful when `placed` puts every buffer where
its own range maps to.
-/

namespace AndroidEmu.Pipe

open CS Checked List Function

/-! ### Entries -/

abbrev Entry := UInt64 × ℕ

def CommandBuffer.entry (b : CommandBuffer) (maxCount i : ℕ) : Entry :=
  (UInt64.ofNat (b.word 8 (ptrOffset i)), b.word 4 (sizeOffset maxCount i))

def CommandBuffer.entries (b : CommandBuffer) (maxCount i n : ℕ) : List Entry :=
  (List.range' i n).map (b.entry maxCount)

/-- The words of the `i`-th range are inside the page. -/
def Readable (maxCount i : ℕ) : Prop :=
  CommandBuffer.ptrOffset i + 8 ≤ commandBufferSize ∧
    CommandBuffer.sizeOffset maxCount i + 4 ≤ commandBufferSize

theorem entries_succ (b : CommandBuffer) (maxCount i n : ℕ) :
    b.entries maxCount i (n + 1) = b.entry maxCount i :: b.entries maxCount (i + 1) n := by
  rfl

open CommandBuffer

@[simp] theorem entries_length (b : CommandBuffer) (maxCount i n : ℕ) :
    (b.entries maxCount i n).length = n := by
  simp [entries]

variable {n offset size start i : ℕ}

theorem readWord_of_le {b : CommandBuffer} (h : offset + n ≤ commandBufferSize) :
    b.readWord n offset = .ok (b.word n offset) := if_pos h

theorem readWord_of_lt {b : CommandBuffer} (h : commandBufferSize < offset + n) :
    b.readWord n offset = .error .commandBuffer := if_neg (by omega)

/-! ### One buffer -/

namespace Setting

variable (st : Setting)

/-- Where a range really is in host memory. -/
def image (e : Entry) : UInt64 := st.mem.mapGuestBuffer e.1 e.2 st.willModifyData

/-- The distance from the guest address to the host address of a range. -/
def delta (e : Entry) : UInt64 := st.image e - e.1

def isPre (e : Entry) : Bool := e.1 ≤ st.target.ramSplitBoundary

/-- The buffer that should be handed to the service. -/
def exact (e : Entry) : Buffer := ⟨st.image e, e.2⟩

/-- The entries that are mapped: those without an offset for their side yet. -/
def anchors : (Bool → UInt64) → List Entry → List Entry
  | _, [] => []
  | diff, e :: es =>
    if diff (st.isPre e) = 1 then
      e :: anchors (Function.update diff (st.isPre e) (st.delta e)) es
    else anchors diff es

/-- The buffers that come out of the loop. -/
def placed : (Bool → UInt64) → List Entry → List Buffer
  | _, [] => []
  | diff, e :: es =>
    if diff (st.isPre e) = 1 then
      st.exact e :: placed (Function.update diff (st.isPre e) (st.delta e)) es
    else ⟨e.1 + diff (st.isPre e), e.2⟩ :: placed diff es

end Setting

/-- The offset for one side of the boundary. -/
def Mapping.diff (m : Mapping) (pre : Bool) : UInt64 :=
  if pre then m.diffFromGuestPreSplit else m.diffFromGuestPostSplit

def Mapping.setDiff (m : Mapping) (pre : Bool) (v : UInt64) : Mapping :=
  if pre then { m with diffFromGuestPreSplit := v } else { m with diffFromGuestPostSplit := v }

section Loop

variable {st : Setting} {m : Mapping} {e : Entry} {b : CommandBuffer} {maxCount : ℕ}

theorem Mapping.setDiff_diff (m : Mapping) (pre : Bool) (v : UInt64) :
    (m.setDiff pre v).diff = Function.update m.diff pre v := by
  funext side
  cases pre <;> cases side <;> rfl

open Mapping

theorem Mapping.store_cases (st : Setting) (m : Mapping) (x : Buffer) :
    m.store st x = .ok { m with buffers := m.buffers ++ [x] } ∨
      (st.build = .debug ∧ m.store st x = .error .assertion) := by
  rw [store]
  cases hbuild : st.build with
  | release =>
    exact .inl rfl
  | debug =>
    by_cases hdata : x.data ≠ 0
    · by_cases hsize : x.size ≠ 0
      · exact .inl (by simp [Build.assert, hdata, hsize])
      · exact .inr ⟨rfl, by simp [Build.assert, hdata, hsize]⟩
    · exact .inr ⟨rfl, by simp [Build.assert, hdata]⟩

/-- The state after an entry that is mapped. -/
def Mapping.afterAnchor (st : Setting) (m : Mapping) (e : Entry) : Mapping :=
  { m.setDiff (st.isPre e) (st.delta e) with
    buffers := m.buffers ++ [st.exact e]
    unmapIndex := m.unmapIndex ++ [m.buffers.length] }

/-- The state after an entry that is placed at the known offset. -/
def Mapping.afterPlaced (st : Setting) (m : Mapping) (e : Entry) : Mapping :=
  { m with buffers := m.buffers ++ [⟨e.1 + m.diff (st.isPre e), e.2⟩] }

theorem Mapping.mapBuffer_cases (st : Setting) (m : Mapping) (e : Entry)
    (hlen : m.buffers.length < maxBuffers) :
    (st.build = .debug ∧ m.mapBuffer st e.1 e.2 = .error .assertion) ∨ m.mapBuffer st e.1 e.2 =
        if m.diff (st.isPre e) = 1 then
          if 2 ≤ m.unmapIndex.length then .error .unmapIndex else .ok (m.afterAnchor st e)
        else .ok (m.afterPlaced st e) := by
  have hstore (m' : Mapping) (x : Buffer) := store_cases st m' x
  have hlen' : ¬ maxBuffers ≤ m.buffers.length := by omega
  by_cases hpre : e.1 ≤ st.target.ramSplitBoundary
  · have hside : st.isPre e = true := decide_eq_true hpre
    have hpost : ¬ st.target.ramSplitBoundary < e.1 := UInt64.not_lt.mpr hpre
    simp only [mapBuffer, if_neg hlen', hpre, hpost, hside, diff, true_and,
      false_and, or_false, if_true, afterAnchor, afterPlaced, setDiff]
    split_ifs with hone hfull
    · exact .inr rfl
    · exact (hstore _ _).symm
    · exact (hstore _ _).symm
  · have hside : st.isPre e = false := decide_eq_false hpre
    have hpost : st.target.ramSplitBoundary < e.1 := UInt64.not_le.mp hpre
    simp only [mapBuffer, if_neg hlen', hpre, hpost, hside, diff, true_and, false_and, false_or,
      if_false, afterAnchor, afterPlaced, setDiff, Bool.false_eq_true]
    split_ifs with hone hfull
    · exact .inr rfl
    · exact (hstore _ _).symm
    · exact (hstore _ _).symm

/-! ### The loop -/

theorem mapBuffers_succ (h : Readable maxCount m.buffers.length) :
    mapBuffers st b maxCount (n + 1) m = (m.mapBuffer st (b.entry maxCount m.buffers.length).1
        (b.entry maxCount m.buffers.length).2) >>= mapBuffers st b maxCount n := by
  rw [mapBuffers, readWord_of_le h.1, readWord_of_le h.2]
  rfl

theorem mapBuffers_of_not_readable (h : ¬ Readable maxCount m.buffers.length) :
    mapBuffers st b maxCount (n + 1) m = .error .commandBuffer := by
  rw [mapBuffers]
  by_cases hptr : ptrOffset m.buffers.length + 8 ≤ commandBufferSize
  · have hsize : ¬ sizeOffset maxCount m.buffers.length + 4 ≤ commandBufferSize :=
      fun hsize => h ⟨hptr, hsize⟩
    rw [readWord_of_le hptr, ok_bind, readWord_of_lt (by omega), error_bind]
  · rw [readWord_of_lt (by omega), error_bind]

theorem Mapping.afterAnchor_diff (st : Setting) (m : Mapping) (e : Entry) :
    (m.afterAnchor st e).diff = Function.update m.diff (st.isPre e) (st.delta e) := by
  rw [← setDiff_diff]
  rfl

@[simp] theorem Mapping.afterAnchor_buffers (st : Setting) (m : Mapping) (e : Entry) :
    (m.afterAnchor st e).buffers = m.buffers ++ [st.exact e] := rfl

@[simp] theorem Mapping.afterPlaced_buffers (st : Setting) (m : Mapping) (e : Entry) :
    (m.afterPlaced st e).buffers = m.buffers ++ [⟨e.1 + m.diff (st.isPre e), e.2⟩] := rfl

/-- A loop over entries inside the page stops at an assertion of a debug build, or ends
with the placed buffers, or stops when a third entry has to be mapped. -/
theorem mapBuffers_of_readable (st : Setting) (b : CommandBuffer) (maxCount : ℕ) :
    ∀ (n : ℕ) (m : Mapping),
      (∀ i, m.buffers.length ≤ i → i < m.buffers.length + n → Readable maxCount i) →
      m.buffers.length + n ≤ maxBuffers → m.unmapIndex.length ≤ 2 →
      (st.build = .debug ∧ mapBuffers st b maxCount n m = .error .assertion) ∨
      (m.unmapIndex.length +
          (st.anchors m.diff (b.entries maxCount m.buffers.length n)).length ≤ 2 ∧
        ∃ m', mapBuffers st b maxCount n m = .ok m' ∧
          m'.buffers = m.buffers ++ st.placed m.diff (b.entries maxCount m.buffers.length n)) ∨
      (2 < m.unmapIndex.length +
          (st.anchors m.diff (b.entries maxCount m.buffers.length n)).length ∧
        mapBuffers st b maxCount n m = .error .unmapIndex) := by
  intro n
  induction n with
  | zero =>
    intro m _ _ hunmap
    refine .inr (.inl ⟨?_, m, rfl, ?_⟩)
    · simpa [entries, Setting.anchors] using hunmap
    · simp [entries, Setting.placed]
  | succ n ih =>
    intro m hread hlen hunmap
    have hnext (m' : Mapping) (hm' : m'.buffers.length = m.buffers.length + 1)
        (hunmap' : m'.unmapIndex.length ≤ 2) := ih m'
      (fun i hlo hhi => hread i (by omega) (by omega)) (by omega) hunmap'
    rw [entries_succ, mapBuffers_succ (hread _ le_rfl (by omega))]
    generalize b.entry maxCount m.buffers.length = e at *
    rcases mapBuffer_cases st m e (by omega) with ⟨hdebug, hfail⟩ | hstep
    · rw [hfail]
      exact .inl ⟨hdebug, rfl⟩
    rw [hstep]
    by_cases hone : m.diff (st.isPre e) = 1
    · simp only [Setting.anchors, Setting.placed, if_pos hone, length_cons]
      by_cases hfull : 2 ≤ m.unmapIndex.length
      · rw [if_pos hfull]
        exact .inr (.inr ⟨by omega, rfl⟩)
      -- the entry is mapped, and its offset is used from here on
      have hgrown : (m.afterAnchor st e).unmapIndex.length = m.unmapIndex.length + 1 := by
        simp [afterAnchor]
      have h := hnext (m.afterAnchor st e) (by simp) (by omega)
      rw [afterAnchor_diff, afterAnchor_buffers, length_append, length_singleton, hgrown] at h
      rw [if_neg hfull]
      rcases h with hdebug | ⟨hle, m', hm', hbuffers⟩ | ⟨hlt, hfail⟩
      · exact .inl hdebug
      · exact .inr (.inl ⟨by omega, m', hm', by simp [hbuffers]⟩)
      · exact .inr (.inr ⟨by omega, hfail⟩)
    · simp only [Setting.anchors, Setting.placed, if_neg hone]
      have h := hnext (m.afterPlaced st e) (by simp) hunmap
      rw [afterPlaced_buffers, length_append] at h
      rcases h with hdebug | ⟨hle, m', hm', hbuffers⟩ | ⟨hlt, hfail⟩
      · exact .inl hdebug
      · exact .inr (.inl ⟨hle, m', hm', by rw [hbuffers]; simp; rfl⟩)
      · exact .inr (.inr ⟨hlt, hfail⟩)

theorem Mapping.length_of_mapBuffer {ptr : UInt64} {m' : Mapping}
    (h : m.mapBuffer st ptr size = .ok m') : m'.buffers.length = m.buffers.length + 1 := by
  have hlen : m.buffers.length < maxBuffers := by
    by_contra hfull
    rw [mapBuffer, if_pos (by omega)] at h
    simp at h
  rcases mapBuffer_cases st m (ptr, size) hlen with ⟨-, hfail⟩ | hstep
  · rw [hfail] at h
    simp at h
  · rw [hstep] at h
    split_ifs at h <;> obtain rfl := Except.ok.inj h <;> simp

theorem readable_of_mapBuffers : ∀ {n : ℕ} {m m' : Mapping}, mapBuffers st b maxCount n m = .ok m' →
      ∀ i, m.buffers.length ≤ i → i < m.buffers.length + n → Readable maxCount i := by
  intro n
  induction n with
  | zero =>
    omega
  | succ n ih =>
    intro m m' h i hlo hhi
    obtain ⟨ptr, hptr, h⟩ := bind_eq_ok.mp h
    obtain ⟨size, hsize, h⟩ := bind_eq_ok.mp h
    obtain ⟨m1, hm1, h⟩ := bind_eq_ok.mp h
    have hlen := length_of_mapBuffer hm1
    by_cases hi : i = m.buffers.length
    · subst hi
      constructor
      · by_contra hout
        rw [readWord_of_lt (by omega)] at hptr
        simp at hptr
      · by_contra hout
        rw [readWord_of_lt (by omega)] at hsize
        simp at hsize
    · exact ih h i (by omega) (by omega)

theorem length_placed (st : Setting) (diff : Bool → UInt64) (es : List Entry) :
    (st.placed diff es).length = es.length := by
  induction es generalizing diff with
  | nil => rfl
  | cons e es ih =>
    rw [Setting.placed]
    split_ifs <;> simp [ih]

/-- Two ranges on the same side of the boundary have the same offset, unless the first
one's is the value that stands for none. -/
def Setting.SameOffset (st : Setting) (a c : Entry) : Prop :=
  st.isPre a = st.isPre c → st.delta a ≠ 1 → st.delta c = st.delta a

open Setting

theorem placed_eq_exact_iff (st : Setting) (diff : Bool → UInt64) (es : List Entry) :
    st.placed diff es = es.map st.exact ↔
      (∀ e ∈ es, diff (st.isPre e) ≠ 1 → st.delta e = diff (st.isPre e)) ∧
        es.Pairwise st.SameOffset := by
  induction es generalizing diff with
  | nil => simp [placed]
  | cons e es ih =>
    rw [placed, map_cons, pairwise_cons, forall_mem_cons]
    split_ifs with hone
    · rw [cons_eq_cons, ih]
      -- an entry on the side of `e` now has to have the offset of `e`
      have hside : (∀ x ∈ es, update diff (st.isPre e) (st.delta e) (st.isPre x) ≠ 1 →
            st.delta x = update diff (st.isPre e) (st.delta e) (st.isPre x)) ↔
          (∀ x ∈ es, diff (st.isPre x) ≠ 1 → st.delta x = diff (st.isPre x)) ∧
            ∀ x ∈ es, st.SameOffset e x := by
        rw [← forall₂_and]
        refine forall₂_congr fun x _ => ?_
        by_cases hx : st.isPre x = st.isPre e
        · simp [hx, hone, SameOffset]
        · simp [update_of_ne hx, SameOffset, Ne.symm hx]
      tauto
    · have hhead : (⟨e.1 + diff (st.isPre e), e.2⟩ : Buffer) = st.exact e ↔
          st.delta e = diff (st.isPre e) := by
        rw [exact, delta, Buffer.mk.injEq, UInt64.sub_eq_iff_eq_add, UInt64.add_comm, eq_comm]
        simp
      rw [cons_eq_cons, hhead, ih]
      constructor
      · rintro ⟨he, hes, hpair⟩
        refine ⟨⟨fun _ => he, hes⟩, ?_, hpair⟩
        intro x hx hside _
        rw [he, hside]
        exact hes x hx (hside ▸ hone)
      · rintro ⟨⟨he, hes⟩, -, hpair⟩
        exact ⟨he hone, hes, hpair⟩

end Loop

/-! ### Calling the service -/

/-- The calls of the service when the first `k` of the buffers are for sending. -/
def callsOf (buffers : List Buffer) (k : ℕ) (replies : Replies) : List ServiceCall :=
  (if k ≠ 0 then [.guestSend (buffers.take k)] else []) ++
    if (k ≠ 0 → 0 ≤ replies.send) ∧ k < buffers.length then [.guestRecv (buffers.drop k)] else []

def sendCount (kind : RwKind) (count readIndex : ℕ) : ℕ := (slices kind count readIndex).1

section Calls

variable {buffers : List Buffer} {kind : RwKind} {count readIndex : ℕ}

theorem slices_recv (hcount : count < 2 ^ 32) (hk : sendCount kind count readIndex ≤ count) :
    (slices kind count readIndex).2.2 = count - sendCount kind count readIndex ∧
      ((slices kind count readIndex).2.2 ≠ 0 →
        (slices kind count readIndex).2.1 = sendCount kind count readIndex) := by
  cases kind with
  | read => exact ⟨rfl, fun _ => rfl⟩
  | write => exact ⟨(Nat.sub_self count).symm, fun h => absurd rfl h⟩
  | call => exact ⟨subNat_of_le hk hcount, fun _ => rfl⟩

theorem handOver_of_le (h : start + n ≤ buffers.length) :
    handOver buffers start n = .ok ((buffers.drop start).take n) := if_pos h

theorem callService_of_le (hlen : buffers.length = count) (hcount : count < 2 ^ 32)
    (hk : sendCount kind count readIndex ≤ count) (replies : Replies) :
    ∃ status consumed, callService buffers kind count readIndex replies =
      .ok (callsOf buffers (sendCount kind count readIndex) replies, status, consumed) := by
  obtain ⟨hrecv, hstart⟩ := slices_recv hcount hk
  simp only [callService, callsOf]
  generalize hsend : sendCount kind count readIndex = k at *
  rw [show (slices kind count readIndex).1 = k from hsend]
  rw [hrecv] at hstart ⊢
  -- the first part
  have hsent : (if k ≠ 0 then (handOver buffers 0 k).map fun bs => [ServiceCall.guestSend bs]
      else pure []) = .ok (if k ≠ 0 then [.guestSend (buffers.take k)] else []) := by
    split_ifs
    · rw [handOver_of_le (by omega), drop_zero]
      rfl
    · rfl
  rw [hsent, ok_bind]
  by_cases hmore : (k ≠ 0 → 0 ≤ replies.send) ∧ k < buffers.length
  · have hne : count - k ≠ 0 := by omega
    have hstatus : 0 ≤ (if k ≠ 0 then replies.send else 0) := by
      split_ifs with hk0
      · exact hmore.1 hk0
      · exact le_rfl
    rw [if_pos ⟨hstatus, hne⟩, hstart hne, handOver_of_le (by omega), if_pos hmore,
      take_of_length_le (by simp; omega)]
    exact ⟨_, _, rfl⟩
  · have hnone : ¬ (0 ≤ (if k ≠ 0 then replies.send else 0) ∧ count - k ≠ 0) := by
      rintro ⟨hstatus, hne⟩
      exact hmore ⟨fun hk0 => by rwa [if_pos hk0] at hstatus, by omega⟩
    rw [if_neg hnone, if_neg hmore, append_nil]
    exact ⟨_, _, rfl⟩

theorem callService_of_lt (hlen : buffers.length = count)
    (hk : count < sendCount kind count readIndex) (replies : Replies) :
    callService buffers kind count readIndex replies = .error .slice := by
  have hout : ¬ 0 + sendCount kind count readIndex ≤ buffers.length := by omega
  simp only [callService]
  rw [show (slices kind count readIndex).1 = sendCount kind count readIndex from rfl,
    if_pos (by omega), handOver, if_neg hout]
  rfl

end Calls

/-! ### Whole commands -/

def CommandBuffer.readIndex (b : CommandBuffer) (maxCount : ℕ) (kind : RwKind) : ℕ :=
  if kind = .call then b.word 4 (readIndexOffset maxCount) else 0

/-- The arrays end inside the page; and for a CALL so does the read index, which is not
above the count. -/
def FitsPage (b : CommandBuffer) (maxCount : ℕ) (kind : RwKind) : Prop :=
  (clampedCount b maxCount = 0 ∨
      CommandBuffer.sizeOffset maxCount (clampedCount b maxCount) ≤ commandBufferSize) ∧
    (kind = .call → CommandBuffer.readIndexOffset maxCount + 4 ≤ commandBufferSize ∧
        b.readIndex maxCount kind ≤ clampedCount b maxCount)

theorem clampedCount_le (b : CommandBuffer) (maxCount : ℕ) :
    clampedCount b maxCount ≤ maxCount := by
  rw [clampedCount]
  split_ifs
  · exact le_rfl
  · omega

section Command

variable {build : Build} {target : Target} {mem : GuestMemory} {pipe : HwPipe} {b : CommandBuffer}
  {kind : RwKind} {replies : Replies} {maxCount : ℕ}

section

variable (h : FitsPage b maxCount kind)

include h

theorem FitsPage.readable (hi : i < clampedCount b maxCount) :
    Readable maxCount i := by
  have hle := clampedCount_le b maxCount
  have hsize := h.1.resolve_left (by omega)
  simp only [sizeOffset] at hsize
  constructor
  · simp only [ptrOffset]
    omega
  · simp only [sizeOffset]
    omega

theorem FitsPage.count_le :
    clampedCount b maxCount ≤ maxBuffers := by
  have hle := clampedCount_le b maxCount
  simp only [maxBuffers, commandBufferSize]
  rcases h.1 with hzero | hsize
  · omega
  · simp only [sizeOffset, commandBufferSize] at hsize
    omega

theorem FitsPage.sendCount_le :
    sendCount kind (clampedCount b maxCount) (b.readIndex maxCount kind) ≤
      clampedCount b maxCount := by
  cases kind with
  | read => exact Nat.zero_le _
  | write => exact le_rfl
  | call => exact (h.2 rfl).2

omit h in
theorem Build.assert_bind_cases {α : Type} (build : Build) (c : Prop) [Decidable c]
    (f : Unit → Except TransferFault α) :
    build.assert c >>= f = f () ∨ (build = .debug ∧ build.assert c >>= f = .error .assertion) := by
  cases build with
  | release =>
    exact .inl rfl
  | debug =>
    by_cases hc : c
    · rw [Build.assert, if_pos (.inr hc)]
      exact .inl rfl
    · rw [Build.assert, if_neg (by simp [hc])]
      exact .inr ⟨rfl, rfl⟩

theorem FitsPage.readIndex_eq :
    (if kind = .call then b.readWord 4 (CommandBuffer.readIndexOffset maxCount) else pure 0) =
      .ok (b.readIndex maxCount kind) := by
  rw [readIndex]
  split_ifs with hcall
  · exact readWord_of_le (h.2 hcall).1
  · rfl

end

/-- A command that fits stops at an assertion of a debug build, or hands over the placed
buffers, or stops when a third entry has to be mapped. -/
theorem transfer_of_fits (build : Build) (target : Target) (mem : GuestMemory)
    (h : FitsPage b pipe.rwParamsMaxCount kind) (replies : Replies) :
    let st : Setting := ⟨build, target, mem, kind.willModifyData⟩
    let count := clampedCount b pipe.rwParamsMaxCount
    let es := b.entries pipe.rwParamsMaxCount 0 count
    (build = .debug ∧ transfer build target mem pipe b kind replies = .error .assertion) ∨
    ((st.anchors (fun _ => 1) es).length ≤ 2 ∧
      ∃ o, transfer build target mem pipe b kind replies = .ok o ∧
        o.calls = callsOf (st.placed (fun _ => 1) es)
          (sendCount kind count (b.readIndex pipe.rwParamsMaxCount kind)) replies) ∨
    (2 < (st.anchors (fun _ => 1) es).length ∧
      transfer build target mem pipe b kind replies = .error .unmapIndex) := by
  intro st count es
  have hdiff : ({} : Mapping).diff = fun _ => 1 := by
    funext side
    cases side <;> rfl
  have hloop := mapBuffers_of_readable st b pipe.rwParamsMaxCount count {}
    (fun i _ hi => h.readable (by simpa using hi)) (by simpa using h.count_le) (by simp)
  simp only [hdiff, length_nil, Nat.zero_add, nil_append] at hloop
  rw [transfer]
  -- the two assertions on the count
  rcases build.assert_bind_cases (count ≠ 0) _ with hassert | hassert
  swap
  · exact .inl hassert
  rw [hassert]
  rcases build.assert_bind_cases (count ≤ maxBuffers) _ with hassert | hassert
  swap
  · exact .inl hassert
  rw [hassert]
  rcases hloop with ⟨hdebug, hfail⟩ | ⟨hle, m, hm, hbuffers⟩ | ⟨hlt, hfail⟩
  · rw [hfail]
    exact .inl ⟨hdebug, rfl⟩
  · rw [hm, ok_bind]
    rcases build.assert_bind_cases (verified st b pipe.rwParamsMaxCount m.buffers) _ with
      hassert | hassert
    swap
    · exact .inl hassert
    rw [hassert, h.readIndex_eq, ok_bind]
    rcases build.assert_bind_cases (b.readIndex pipe.rwParamsMaxCount kind ≤ count) _ with
      hassert | hassert
    swap
    · exact .inl hassert
    have hlen : m.buffers.length = count := by rw [hbuffers, length_placed, entries_length]
    have hcount : count < 2 ^ 32 := lt_of_le_of_lt h.count_le (by decide)
    obtain ⟨status, consumed, hcalls⟩ := callService_of_le hlen hcount h.sendCount_le replies
    rw [hassert, hcalls, hbuffers]
    exact .inr (.inl ⟨hle, _, rfl, rfl⟩)
  · rw [hfail]
    exact .inr (.inr ⟨hlt, rfl⟩)

theorem transfer_release (target : Target) (mem : GuestMemory) (pipe : HwPipe) (b : CommandBuffer)
    (kind : RwKind) (replies : Replies) :
    let st : Setting := ⟨.release, target, mem, kind.willModifyData⟩
    let count := clampedCount b pipe.rwParamsMaxCount
    ∃ finish : Mapping → ℕ → List ServiceCall × ℤ × ℤ → Outcome,
      transfer .release target mem pipe b kind replies = (do
        let m ← mapBuffers st b pipe.rwParamsMaxCount count {}
        let readIndex ← (if kind = .call then
            b.readWord 4 (readIndexOffset pipe.rwParamsMaxCount)
          else pure 0)
        let result ← callService m.buffers kind count readIndex replies
        return finish m readIndex result) := by
  exact ⟨_, rfl⟩

open Mapping

theorem mapBuffers_length {st : Setting} {m m' : Mapping}
    (h : mapBuffers st b maxCount n m = .ok m') : m'.buffers.length = m.buffers.length + n := by
  induction n generalizing m with
  | zero => rw [← Except.ok.inj h, Nat.add_zero]
  | succ n ih =>
    obtain ⟨_, -, h⟩ := bind_eq_ok.mp h
    obtain ⟨_, -, h⟩ := bind_eq_ok.mp h
    obtain ⟨m1, hm1, h⟩ := bind_eq_ok.mp h
    rw [ih h, length_of_mapBuffer hm1]
    omega

/-- The command stays inside the page and the array of buffers, and hands over only
buffers that were filled in. -/
def InBounds (x : Except TransferFault Outcome) : Prop :=
  x ≠ .error .commandBuffer ∧ x ≠ .error .buffers ∧ x ≠ .error .slice

/-- A command of a release build that stays in bounds fits, if its loop does not stop for
another reason. -/
theorem fitsPage_of_inBounds (h : InBounds (transfer .release target mem pipe b kind replies))
    (hloop : ∀ f, mapBuffers ⟨.release, target, mem, kind.willModifyData⟩ b pipe.rwParamsMaxCount
      (clampedCount b pipe.rwParamsMaxCount) {} = .error f → f = .commandBuffer ∨ f = .buffers) :
    FitsPage b pipe.rwParamsMaxCount kind := by
  obtain ⟨finish, heq⟩ := transfer_release target mem pipe b kind replies
  rw [heq] at h
  cases hm : mapBuffers ⟨.release, target, mem, kind.willModifyData⟩ b pipe.rwParamsMaxCount
      (clampedCount b pipe.rwParamsMaxCount) {} with
  | error f =>
    rw [hm] at h
    rcases hloop f hm with rfl | rfl
    · exact absurd rfl h.1
    · exact absurd rfl h.2.1
  | ok m =>
    have hread := readable_of_mapBuffers hm
    have hlen := mapBuffers_length hm
    simp only [length_nil, Nat.zero_add] at hread hlen
    rw [hm, ok_bind] at h
    refine ⟨?_, fun hcall => ?_⟩
    · by_cases hzero : clampedCount b pipe.rwParamsMaxCount = 0
      · exact .inl hzero
      have hlast := (hread (clampedCount b pipe.rwParamsMaxCount - 1) (Nat.zero_le _)
        (by omega)).2
      simp only [sizeOffset] at hlast ⊢
      right
      omega
    · rw [if_pos hcall] at h
      have hindex : readIndexOffset pipe.rwParamsMaxCount + 4 ≤ commandBufferSize := by
        by_contra hout
        rw [readWord_of_lt (by omega)] at h
        exact h.1 rfl
      refine ⟨hindex, ?_⟩
      by_contra hlarge
      rw [readWord_of_le hindex, ok_bind] at h
      have hsend : clampedCount b pipe.rwParamsMaxCount <
          sendCount kind (clampedCount b pipe.rwParamsMaxCount)
            (b.word 4 (readIndexOffset pipe.rwParamsMaxCount)) := by
        rw [readIndex, if_pos hcall] at hlarge
        rw [hcall]
        exact not_le.mp hlarge
      rw [callService_of_lt hlen hsend] at h
      exact h.2.2 rfl

/-- If all ranges have one offset, at most one entry on each side is mapped, so the loop
stops only where it leaves the page or the array. -/
theorem mapBuffers_error_of_offset {st : Setting} {offset : UInt64} {f : TransferFault}
    (hbuild : st.build = .release) (hoffset : ∀ e, st.delta e = offset) (hne : offset ≠ 1) :
    ∀ (n : ℕ) (m : Mapping),
      m.unmapIndex.length + (if m.diff true = 1 then 1 else 0) +
        (if m.diff false = 1 then 1 else 0) ≤ 2 →
      mapBuffers st b maxCount n m = .error f → f = .commandBuffer ∨ f = .buffers := by
  intro n
  induction n with
  | zero =>
    intro m _ h
    simp [mapBuffers] at h
  | succ n ih =>
    intro m hroom h
    by_cases hread : Readable maxCount m.buffers.length
    swap
    · rw [mapBuffers_of_not_readable hread] at h
      exact .inl (Except.error.inj h).symm
    rw [mapBuffers_succ hread] at h
    generalize b.entry maxCount m.buffers.length = e at h
    by_cases hlen : m.buffers.length < maxBuffers
    swap
    · rw [mapBuffer, if_pos (by omega)] at h
      exact .inr (Except.error.inj h).symm
    rcases mapBuffer_cases st m e hlen with ⟨hdebug, -⟩ | hstep
    · rw [hbuild] at hdebug
      exact Build.noConfusion hdebug
    rw [hstep] at h
    by_cases hone : m.diff (st.isPre e) = 1
    · have hfree : ¬ 2 ≤ m.unmapIndex.length := by
        cases hside : st.isPre e <;> rw [hside] at hone <;> simp only [hone, if_true] at hroom <;>
          omega
      rw [if_pos hone, if_neg hfree] at h
      refine ih _ ?_ h
      -- the side of `e` now has an offset
      rw [afterAnchor_diff, hoffset e]
      cases hside : st.isPre e <;> rw [hside] at hone <;>
        simp only [hone, if_true, update_self, hne, if_false, ne_eq, reduceCtorEq,
          not_false_eq_true, update_of_ne, afterAnchor, length_append,
          length_singleton] at hroom ⊢ <;> omega
    · rw [if_neg hone, ok_bind] at h
      exact ih (m.afterPlaced st e) hroom h

end Command

/-! ### Staying in bounds -/

theorem delta_shifted (build : Build) (target : Target) (offset : UInt64) (willModifyData : Bool)
    (e : Entry) :
    (⟨build, target, .shifted offset, willModifyData⟩ : Setting).delta e = offset := by
  -- also where the host address wraps around to null
  have himage : (⟨build, target, .shifted offset, willModifyData⟩ : Setting).image e =
      e.1 + offset := by
    by_cases hnull : e.1 + offset = 0 <;>
      simp [Setting.image, GuestMemory.mapGuestBuffer, GuestMemory.shifted, hnull]
  rw [Setting.delta, himage, UInt64.add_comm, UInt64.add_sub_cancel]

/-- For every pipe and every command buffer: in a release build a READ, WRITE or CALL stays
inside the page and the array of buffers and hands over only buffers that were filled
in, whatever guest memory is like and the service answers, exactly when the host has
closed the pipe or the command fits. In a debug build it does so when it fits. -/
theorem rwCommand_inBounds_iff (target : Target) (pipe : HwPipe) (b : CommandBuffer)
    (kind : RwKind) :
    ((∀ mem replies, InBounds (rwCommand .release target mem pipe b kind replies)) ↔
      pipe.closed = true ∨ FitsPage b pipe.rwParamsMaxCount kind) ∧
    (pipe.closed = true ∨ FitsPage b pipe.rwParamsMaxCount kind →
      ∀ mem replies, InBounds (rwCommand .debug target mem pipe b kind replies)) := by
  have hin (build : Build) (h : pipe.closed = true ∨ FitsPage b pipe.rwParamsMaxCount kind)
      (mem : GuestMemory) (replies : Replies) :
      InBounds (rwCommand build target mem pipe b kind replies) := by
    rw [rwCommand]
    split_ifs with hclosed
    · simp [InBounds]
    · rcases transfer_of_fits build target mem
          (h.resolve_left hclosed) replies with ⟨-, hfail⟩ | ⟨-, o, ho, -⟩ | ⟨-, hfail⟩
      · simp [InBounds, hfail]
      · simp [InBounds, ho]
      · simp [InBounds, hfail]
  refine ⟨⟨fun h => ?_, hin .release⟩, hin .debug⟩
  by_cases hclosed : pipe.closed = true
  · exact .inl hclosed
  right
  -- in a memory with one offset the loop does not stop for another reason
  have hshifted := h (.shifted 4096) ⟨0, 0, none⟩
  rw [rwCommand, if_neg hclosed] at hshifted
  refine fitsPage_of_inBounds hshifted fun f hf => ?_
  exact mapBuffers_error_of_offset rfl (delta_shifted _ _ _ _) (by decide) _ _ (by decide) hf

/-- An open of pipe zero with a maximum count of 340 is granted. A CALL with one buffer
then reads its read index from behind the end of the page. -/
theorem call_reads_past_page : ∃ d d' r p,
      (PipeDevice.realize Heap.ample).map ({ · with openCommand := true }) = .ok d ∧
      d.doOpenClose 0 ⟨0, 340, some (.ofBytes [(0, 1)]), some 0, Heap.ample⟩ = .ok (d', some 0) ∧
      d'.slot 0 = .ok (some r) ∧ d'.loadPipe r = .ok p ∧
      rwCommand .release .i386 (.shifted 4096) p (.ofBytes [(0, 11), (16, 1)]) .call ⟨0, 0, none⟩ =
        .error .commandBuffer :=
  ⟨_, _, _, _, rfl, rfl, rfl, rfl, by decide +kernel⟩

/-! ### Handing over what the guest named -/

/-- Every range maps; ranges on one side of the boundary map with one offset; and not more
than two ranges have to be mapped themselves. -/
structure Uniform (st : Setting) (es : List Entry) : Prop where
  mapped : ∀ e ∈ es, st.image e ≠ 0
  sameOffset : es.Pairwise st.SameOffset
  anchors_le : (st.anchors (fun _ => 1) es).length ≤ 2

/-- The service got the first `k` ranges to read from and the others to write to, each
where it maps to; and if some range does not map the service was not called. -/
def Faithful (st : Setting) (es : List Entry) (k : ℕ) (o : Outcome) : Prop :=
  (∀ call ∈ o.calls, call = .guestSend ((es.map st.exact).take k) ∨
    call = .guestRecv ((es.map st.exact).drop k)) ∧
  ((∃ e ∈ es, st.image e = 0) → o.calls = [])

section Faithful

variable {st : Setting} {es : List Entry} {k : ℕ} {o : Outcome} {bs : List Buffer}

theorem faithful_of_uniform {replies : Replies} (h : Uniform st es)
    (hcalls : o.calls = callsOf (st.placed (fun _ => 1) es) k replies) : Faithful st es k o := by
  have hplaced : st.placed (fun _ => 1) es = es.map st.exact :=
    (placed_eq_exact_iff st _ es).mpr ⟨by simp, h.sameOffset⟩
  rw [hplaced] at hcalls
  constructor
  · intro call hcall
    rw [hcalls, callsOf, mem_append] at hcall
    rcases hcall with hcall | hcall
    · split_ifs at hcall
      · exact .inl (mem_singleton.mp hcall)
      · simp at hcall
    · split_ifs at hcall
      · exact .inr (mem_singleton.mp hcall)
      · simp at hcall
  · rintro ⟨e, he, hnull⟩
    exact absurd hnull (h.mapped e he)

theorem uniform_of_faithful {replies : Replies} (hsend : 0 ≤ replies.send)
    (hanchors : (st.anchors (fun _ => 1) es).length ≤ 2) (hk : k ≤ es.length)
    (hcalls : o.calls = callsOf (st.placed (fun _ => 1) es) k replies)
    (h : Faithful st es k o) : Uniform st es := by
  have hlen := length_placed st (fun _ => 1) es
  rw [callsOf] at hcalls
  refine ⟨fun e he hnull => ?_, ?_, hanchors⟩
  · -- some buffer is handed over
    have hnone := h.2 ⟨e, he, hnull⟩
    have hpos := length_pos_of_mem he
    rw [hcalls] at hnone
    by_cases hk0 : k = 0
    · have hrecv : (k ≠ 0 → 0 ≤ replies.send) ∧ k < (st.placed (fun _ => 1) es).length :=
        ⟨fun _ => hsend, by omega⟩
      rw [if_pos hrecv] at hnone
      simp at hnone
    · simp [hk0] at hnone
  · have htake : (st.placed (fun _ => 1) es).take k = (es.map st.exact).take k := by
      by_cases hk0 : k = 0
      · simp [hk0]
      · have := h.1 (.guestSend ((st.placed (fun _ => 1) es).take k)) (by simp [hcalls, hk0])
        simpa using this
    have hdrop : (st.placed (fun _ => 1) es).drop k = (es.map st.exact).drop k := by
      by_cases hkn : k < es.length
      · have := h.1 (.guestRecv ((st.placed (fun _ => 1) es).drop k))
          (by simp [hcalls, hsend, hlen, hkn])
        simpa using this
      · rw [drop_of_length_le (by omega), drop_of_length_le (by simp; omega)]
    have hplaced : st.placed (fun _ => 1) es = es.map st.exact := by
      rw [← take_append_drop k (st.placed _ es), htake, hdrop, take_append_drop]
    exact ((placed_eq_exact_iff st _ es).mp hplaced).2

end Faithful

/-- For every pipe, command buffer and guest memory: in a release build a READ, WRITE or
CALL hands the service exactly the host images of the ranges the guest named, and
nothing if some range is not guest memory, whatever the service answers, exactly when
the host has closed the pipe or the command fits and its ranges map alike. -/
theorem rwCommand_faithful_iff (target : Target) (mem : GuestMemory) (pipe : HwPipe)
    (b : CommandBuffer) (kind : RwKind) :
    let st : Setting := ⟨.release, target, mem, kind.willModifyData⟩
    let count := clampedCount b pipe.rwParamsMaxCount
    let es := b.entries pipe.rwParamsMaxCount 0 count
    let k := sendCount kind count (b.readIndex pipe.rwParamsMaxCount kind)
    (∀ replies, ∃ o, rwCommand .release target mem pipe b kind replies = .ok o ∧
        Faithful st es k o) ↔
      pipe.closed = true ∨ (FitsPage b pipe.rwParamsMaxCount kind ∧ Uniform st es) := by
  intro st count es k
  simp only [rwCommand]
  by_cases hclosed : pipe.closed = true
  · simp only [hclosed, if_true, true_or, iff_true]
    intro replies
    exact ⟨_, rfl, by simp, fun _ => rfl⟩
  simp only [hclosed, Bool.false_eq_true, if_false, false_or]
  constructor
  · intro h
    obtain ⟨o, ho, hfaithful⟩ := h ⟨0, 0, none⟩
    have hfits : FitsPage b pipe.rwParamsMaxCount kind := by
      have hin : InBounds (transfer .release target mem pipe b kind ⟨0, 0, none⟩) := by
        simp [InBounds, ho]
      refine fitsPage_of_inBounds hin fun f hf => ?_
      obtain ⟨finish, heq⟩ := transfer_release target mem pipe b kind ⟨0, 0, none⟩
      rw [heq, hf] at ho
      simp at ho
    refine ⟨hfits, ?_⟩
    rcases transfer_of_fits .release target mem hfits
        ⟨0, 0, none⟩ with ⟨hdebug, -⟩ | ⟨hanchors, o', ho', hcalls⟩ | ⟨-, hfail⟩
    · exact Build.noConfusion hdebug
    · obtain rfl := Except.ok.inj (ho'.symm.trans ho)
      exact uniform_of_faithful le_rfl hanchors (by simpa [es] using hfits.sendCount_le) hcalls
        hfaithful
    · rw [hfail] at ho
      simp at ho
  · rintro ⟨hfits, huniform⟩ replies
    rcases transfer_of_fits .release target mem hfits replies with
      ⟨hdebug, -⟩ | ⟨-, o, ho, hcalls⟩ | ⟨hlt, -⟩
    · exact Build.noConfusion hdebug
    · exact ⟨o, ho, faithful_of_uniform huniform hcalls⟩
    · exact absurd huniform.anchors_le (not_le.mpr hlt)

/-- A guest memory of two pages. -/
def GuestMemory.twoPages : GuestMemory where
  map phys size _ := if phys.toNat + size ≤ 8192 then (phys + 65536, size) else (0, 0)

/-- A WRITE of sixteen bytes at the second page and sixteen bytes far behind the end of
guest memory. The first range is mapped and the second is placed at the same offset,
so the service is made to read host memory that is not the guest's. -/
theorem write_reads_outside_guest :
    ∃ o, rwCommand .release .i386 .twoPages { rwParamsMaxCount := 2 }
        (.ofBytes [(0, 4), (16, 2), (25, 0x10), (33, 0x50), (40, 16), (44, 16)]) .write
        ⟨0, 0, none⟩ = .ok o ∧
      o.calls = [.guestSend [⟨0x11000, 16⟩, ⟨0x15000, 16⟩]] ∧
      GuestMemory.twoPages.mapGuestBuffer 0x1000 16 false = 0x11000 ∧
      GuestMemory.twoPages.mapGuestBuffer 0x5000 16 false = 0 :=
  ⟨_, rfl, by decide +kernel, by decide +kernel, by decide +kernel⟩

end AndroidEmu.Pipe
