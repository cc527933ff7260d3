import AndroidEmu.Pipe.Wanted

/-!
# Snapshots of the pipe device

Loading a snapshot makes new pipes at the saved ids and puts the wanted ones on the list again, in
the opposite order, so nothing a pipe is wanted for is lost. Pipes the service cannot restore are
closed and become wanted.
-/

namespace AndroidEmu.Pipe.PipeDevice

open CS Checked List Option

/-! ### Saving -/

/-- The image has all pipes of the device under distinct ids, and names the wanted ones. -/
structure Records (img : Image) (d : PipeDevice) (xs : List ℕ) : Prop where
  capacity_lt : img.pipesCapacity < 2 ^ 31
  nodup : (img.pipes.map SavedPipe.id).Nodup
  lt_capacity : ∀ sp ∈ img.pipes, sp.id < img.pipesCapacity
  pipes : ∀ {i r p}, d.lookup i = some r → d.pipeAt r = some p →
    ∃ sp ∈ img.pipes, sp.id = i ∧ sp.wanted = p.wanted
  wanted : ∀ {i r}, d.lookup i = some r → r ∈ xs → i ∈ img.wanted
  wanted_mem : ∀ i ∈ img.wanted, i ∈ img.pipes.map SavedPipe.id

variable {d d1 d0 : PipeDevice}

namespace Wf

variable {d : PipeDevice} {xs : List ℕ} {i r : ℕ}

theorem saveSlots (h : d.Wf xs) : ∀ {n i : ℕ}, i + n = d.pipesCapacity →
    ∃ sps, d.saveSlots i n = .ok sps ∧ (sps.map SavedPipe.id).Nodup ∧
      (∀ sp ∈ sps, i ≤ sp.id ∧ sp.id < d.pipesCapacity) ∧
      ∀ {j r p}, i ≤ j → d.lookup j = some r → d.pipeAt r = some p → SavedPipe.ofPipe p ∈ sps := by
  intro n
  induction n with
  | zero =>
    intro i hcap
    refine ⟨[], rfl, by simp, by simp, fun hij hj _ => ?_⟩
    have := lt_capacity_of_lookup hj
    omega
  | succ n ih =>
    intro i hcap
    obtain ⟨sps, hsps, hnodup, hbound, hall⟩ := ih (i := i + 1) (by omega)
    rw [PipeDevice.saveSlots, h.table.slot (by omega), ok_bind]
    cases hi : d.lookup i with
    | none =>
      refine ⟨sps, hsps, hnodup, fun sp hsp => ?_, fun {j r p} hij hj hp => ?_⟩
      · obtain ⟨hle, hlt⟩ := hbound sp hsp
        exact ⟨by omega, hlt⟩
      · refine hall (Nat.lt_of_le_of_ne hij ?_) hj hp
        rintro rfl
        simp [hi] at hj
    | some r =>
      obtain ⟨p, hp, hid⟩ := h.exists_cell hi
      have hsaved : (SavedPipe.ofPipe p).id = i := hid
      refine ⟨.ofPipe p :: sps, ?_, ?_, ?_, ?_⟩
      · simp only [loadPipe, Store.load_of hp, hsps, ok_bind, pure_eq_ok]
      · rw [map_cons, nodup_cons, hsaved]
        refine ⟨fun hmem => ?_, hnodup⟩
        obtain ⟨sp, hsp, hspid⟩ := List.mem_map.mp hmem
        have := (hbound sp hsp).1
        omega
      · intro sp hsp
        rcases mem_cons.mp hsp with rfl | hsp
        · rw [hsaved]
          exact ⟨le_rfl, by omega⟩
        · obtain ⟨hle, hlt⟩ := hbound sp hsp
          exact ⟨by omega, hlt⟩
      · intro j r' p' hij hj hp'
        rcases eq_or_lt_of_le hij with rfl | hlt
        · obtain rfl := some.inj (hi.symm.trans hj)
          obtain rfl := some.inj ((content_of_cell hp).symm.trans hp')
          exact mem_cons_self
        · exact mem_cons_of_mem _ (hall hlt hj hp')

theorem mapM_id (h : d.Wf xs) : ∀ {ys : List ℕ}, (∀ r ∈ ys, r ∈ xs) →
    ∃ ids, (ys.mapM fun r => (d.loadPipe r).map HwPipe.id) = .ok ids ∧
      (∀ {i r}, d.lookup i = some r → r ∈ ys → i ∈ ids) ∧
      ∀ i ∈ ids, ∃ r, d.lookup i = some r := by
  intro ys
  induction ys with
  | nil => exact fun _ => ⟨[], rfl, by simp, by simp⟩
  | cons r ys ih =>
    intro hsub
    obtain ⟨ids, hids, hall, hlive⟩ := ih fun q hq => hsub q (mem_cons_of_mem r hq)
    obtain ⟨p, hp, hr⟩ := h.lookup_of_mem (hsub r mem_cons_self)
    refine ⟨p.id :: ids, ?_, ?_, ?_⟩
    · rw [mapM_cons, hids, loadPipe, Store.load_of hp]
      rfl
    · intro i q hi hq
      rcases mem_cons.mp hq with rfl | hq
      · obtain ⟨p', hp', hid⟩ := h.exists_cell hi
        obtain rfl := some.inj (hp.symm.trans hp')
        rw [← hid]
        exact mem_cons_self
      · exact mem_cons_of_mem _ (hall hi hq)
    · intro i hi
      rcases mem_cons.mp hi with rfl | hi
      · exact ⟨r, hr⟩
      · exact hlive i hi

theorem length_le_bound (h : d.Wf xs) : xs.length ≤ d.wanted.pipes.bound := by
  have hsub : xs ⊆ List.range d.wanted.pipes.bound := by
    intro r hr
    obtain ⟨p, hp⟩ := isSome_iff_exists.mp (h.holds.live r hr)
    exact mem_range.mpr (Store.lt_bound hp)
  simpa using (subperm_of_subset h.holds.isList.nodup hsub).length_le

theorem save (h : d.Wf xs) : ∃ img, d.save = .ok img ∧ Records img d xs := by
  obtain ⟨sps, hsps, hnodup, hbound, hall⟩ := h.saveSlots (Nat.zero_add _)
  obtain ⟨ids, hids, hwanted, hlive⟩ := h.mapM_id fun _ hr => hr
  let img : Image := {
    signalledPipeBufferSize := d.signalledPipeBufferSize
    signalledPipeBufferAddr := d.signalledPipeBufferAddr
    openCommandAddr := d.openCommandAddr
    pipesCapacity := d.pipesCapacity
    pipes := sps
    wanted := ids }
  refine ⟨img, ?_, ⟨h.table.capacity_lt, hnodup, ?_, ?_, hwanted, ?_⟩⟩
  · rw [PipeDevice.save, hsps, ok_bind, saveWanted, h.holds.isList.path.follow_eq h.length_le_bound]
    simp only [hids, ok_bind, pure_eq_ok]
    rfl
  · exact fun sp hsp => (hbound sp hsp).2
  · intro i r p hi hp
    obtain ⟨p', hp', hid⟩ := h.table.found hi
    obtain rfl := some.inj (hp.symm.trans hp')
    exact ⟨_, hall (Nat.zero_le _) hi hp, hid, rfl⟩
  · intro i hi
    obtain ⟨r, hr⟩ := hlive i hi
    obtain ⟨p, hp, rfl⟩ := h.table.found hr
    exact List.mem_map.mpr ⟨_, hall (Nat.zero_le _) hr hp, rfl⟩

/-! ### Loading -/

/-- Pipes were loaded into a device without wanted pipes; the pipes it had are still
there. -/
structure Restored (d d' : PipeDevice) (sps : List SavedPipe) : Prop where
  wf : d'.Wf []
  front_eq : d'.front = d.front
  kept : ∀ {i r p}, d.lookup i = some r → d.pipeAt r = some p →
    d'.lookup i = some r ∧ d'.pipeAt r = some p
  loaded : ∀ sp ∈ sps, ∃ r p, d'.lookup sp.id = some r ∧ d'.pipeAt r = some p ∧ p.wanted = sp.wanted

/-- What loading pipes can come to: there is no memory for one, or it fails, or the pipes
are there and some of them have to be closed. -/
inductive LoadResult (d : PipeDevice) (sps : List SavedPipe) :
    Checked (PipeDevice × Option (List ℕ)) → Prop
  | outOfMemory : LoadResult d sps (.error .outOfMemory)
  | failed {d' : PipeDevice} (hwf : d'.Wf []) (hfront : d'.front = d.front) :
    LoadResult d sps (.ok (d', none))
  | restored {d' : PipeDevice} {closing : List ℕ} (h : Restored d d' sps)
    (hclosing : ∀ i ∈ closing, i ∈ sps.map SavedPipe.id) :
    LoadResult d sps (.ok (d', some closing))

theorem LoadResult.cons {sp : SavedPipe} {sps : List SavedPipe}
    {x : Checked (PipeDevice × Option (List ℕ))} {forceClose : Bool} (h : LoadResult d1 sps x)
    (hone : Restored d d1 [sp]) : LoadResult d (sp :: sps) (do
      let (d, closing) ← x
      return (d, closing.map fun ids => if forceClose then sp.id :: ids else ids)) := by
  cases h with
  | outOfMemory => exact .outOfMemory
  | failed hwf hfront => exact .failed hwf (hfront.trans hone.front_eq)
  | restored h hclosing =>
    refine .restored ⟨h.wf, h.front_eq.trans hone.front_eq, ?_, ?_⟩ ?_
    · intro i r p hi hp
      obtain ⟨hi', hp'⟩ := hone.kept hi hp
      exact h.kept hi' hp'
    · intro sp' hsp'
      rcases mem_cons.mp hsp' with rfl | hsp'
      · obtain ⟨r, p, hr, hp, hwanted⟩ := hone.loaded _ mem_cons_self
        obtain ⟨hr', hp'⟩ := h.kept hr hp
        exact ⟨r, p, hr', hp', hwanted⟩
      · exact h.loaded sp' hsp'
    · intro i hi
      split_ifs at hi
      · rcases mem_cons.mp hi with rfl | hi
        · exact mem_cons_self
        · exact mem_cons_of_mem _ (hclosing i hi)
      · exact mem_cons_of_mem _ (hclosing i hi)

theorem loadPipes (q : LoadRequest) : ∀ {sps : List SavedPipe} {d : PipeDevice}, d.Wf [] →
    (sps.map SavedPipe.id).Nodup →
    (∀ sp ∈ sps, sp.id < d.pipesCapacity ∧ d.lookup sp.id = none) →
    LoadResult d sps (PipeDevice.loadPipes q sps d) := by
  intro sps
  induction sps with
  | nil =>
    intro d h _ _
    exact .restored ⟨h, rfl, fun hi hp => ⟨hi, hp⟩, by simp⟩ (by simp)
  | cons sp sps ih =>
    intro d h hnodup hfree
    obtain ⟨hlt, hnone⟩ := hfree sp mem_cons_self
    have hnew := d.wanted.pipes.cell_bound
    generalize hr : d.wanted.pipes.bound = r at hnew
    rw [PipeDevice.loadPipes]
    rcases q.hostPipe sp with ⟨hostPipe, forceClose⟩
    simp only [hwpipeNew]
    by_cases hgrant : q.heap.grants hwPipeBytes = true
    swap
    · rw [if_neg hgrant]
      exact .outOfMemory
    simp only [if_pos hgrant, Store.alloc, ok_bind, hr]
    generalize hp : ({
      id := sp.id
      wanted := sp.wanted
      closed := sp.closed || forceClose
      hostPipe := hostPipe
      commandBufferAddr := sp.commandBufferAddr
      rwParamsMaxCount := sp.rwParamsMaxCount } : HwPipe) = p
    obtain ⟨hfreed, hwf, -⟩ := h.freeNew hnew p
    by_cases hfail : q.mapsCommandBuffer sp.id = false ∨ forceClose = false ∧ hostPipe = none
    · rw [if_pos hfail, hfreed]
      exact .failed hwf rfl
    rw [if_neg hfail]
    have hset := setSlot_of (d := { d with wanted.pipes := d.wanted.pipes.put r (some p) })
      h.table.length_le hlt (some r)
    have hslot : slot { d with wanted.pipes := d.wanted.pipes.put r (some p) } sp.id = .ok none :=
      (slot_of h.table.length_le hlt).trans (congrArg _ hnone)
    have hlookup := lookup_set h.table.length_le hlt (some r)
    rw [hslot]
    rw [hset]
    have hplaced := h.place (p := p) hlt hnone hnew (by rw [← hp]) (by rw [← hp]) (by rw [← hp])
    rw [map_cons, nodup_cons] at hnodup
    refine (ih hplaced hnodup.2 fun sp' hsp' => ?_).cons ⟨hplaced, rfl, ?_, ?_⟩
    · obtain ⟨hlt', hnone'⟩ := hfree sp' (mem_cons_of_mem sp hsp')
      refine ⟨hlt', ((hlookup sp'.id).trans (if_neg ?_)).trans hnone'⟩
      intro hid
      exact hnodup.1 (hid ▸ List.mem_map_of_mem hsp')
    · intro i r' p' hi hp'
      constructor
      · refine (hlookup i).trans ((if_neg ?_).trans hi)
        rintro rfl
        simp [hnone] at hi
      · have hne : r' ≠ r := by
          rintro rfl
          rw [pipeAt, content_eq_none.mpr hnew] at hp'
          simp at hp'
        exact (content_put _ r r' _).trans ((if_neg hne).trans hp')
    · intro sp' hsp'
      obtain rfl := mem_singleton.mp hsp'
      refine ⟨r, p.core, (hlookup _).trans (if_pos rfl), ?_, by rw [← hp]; rfl⟩
      exact content_of_cell (Store.put_cell_self ..)

theorem loadWanted : ∀ {ids : List ℕ} {d : PipeDevice} {xs : List ℕ}, d.Wf xs →
    (∀ i ∈ ids, ∃ r, d.lookup i = some r) →
    ∃ w ys, let d' : PipeDevice := { d with wanted := w }
      PipeDevice.loadWanted ids d = .ok (d', true) ∧ d'.Wf ys ∧ d'.pipeAt = d.pipeAt ∧
        (∀ r ∈ xs, r ∈ ys) ∧ ∀ i ∈ ids, ∀ r, d.lookup i = some r → r ∈ ys := by
  intro ids
  induction ids with
  | nil => exact fun {d xs} h _ => ⟨d.wanted, xs, rfl, h, rfl, fun _ hr => hr, by simp⟩
  | cons i ids ih =>
    intro d xs h hopen
    obtain ⟨r, hr⟩ := hopen i mem_cons_self
    obtain ⟨p, hp, -⟩ := h.exists_cell hr
    obtain ⟨w, hadd, hwf, hsame⟩ := h.wantedPipesAdd (r := r) (by simp [hp])
    obtain ⟨w', ys, hrest, hwf', hsame', hsub, hall⟩ :=
      ih hwf fun j hj => hopen j (mem_cons_of_mem i hj)
    refine ⟨w', ys, ?_, hwf', hsame'.trans hsame, fun q hq => ?_, fun j hj q hq => ?_⟩
    · rw [PipeDevice.loadWanted, h.table.slot (lt_capacity_of_lookup hr), ok_bind, hr]
      simp only [hadd, ok_bind, hrest]
    · exact hsub q (mem_insert_of_mem hq)
    · rcases mem_cons.mp hj with rfl | hj
      · obtain rfl := some.inj (hr.symm.trans hq)
        exact hsub r mem_insert_self
      · exact hall j hj q hq

theorem closeLoaded : ∀ {ids : List ℕ} {d : PipeDevice} {xs : List ℕ}, d.Wf xs →
    (∀ i ∈ ids, ∃ r, d.lookup i = some r) →
    ∃ w ys, let d' : PipeDevice := { d with wanted := w }
      PipeDevice.closeLoaded ids d = .ok d' ∧ d'.Wf ys ∧
        ∀ id k, Wants d xs id k → Wants d' ys id k := by
  intro ids
  induction ids with
  | nil => exact fun {d xs} h _ => ⟨d.wanted, xs, rfl, h, fun _ _ hw => hw⟩
  | cons i ids ih =>
    intro d xs h hopen
    obtain ⟨r, hr⟩ := hopen i mem_cons_self
    obtain ⟨p, hp, -⟩ := h.exists_cell hr
    obtain ⟨w, hwake, hwf, hkeep, -⟩ := h.wake hr hp
      (f := fun p => { p with wanted := p.wanted ||| wakeClosed, closed := true }) rfl rfl rfl (by
        intro k hflag
        rw [hasFlag_or, hflag, Bool.true_or])
    obtain ⟨d1, hmodify, hadd⟩ := bind_eq_ok.mp hwake
    obtain ⟨w', ys, hrest, hwf', hkeep'⟩ :=
      ih hwf fun j hj => hopen j (mem_cons_of_mem i hj)
    refine ⟨w', ys, ?_, hwf', fun id k hw => hkeep' id k (hkeep id k hw)⟩
    rw [PipeDevice.closeLoaded, h.table.slot (lt_capacity_of_lookup hr), ok_bind, hr]
    simp only [hmodify, hadd, ok_bind, hrest]

theorem loadTable (h : d.Wf []) (hnone : ∀ j, d.lookup j = none) (hempty : ∀ q, d.pipeAt q = none)
    (heap : Heap) {capacity : ℕ} (hlt : capacity < 2 ^ 31) : d.loadTable heap capacity = none ∨
      ∃ pipes, let d' : PipeDevice := { d with pipes, pipesCapacity := capacity }
        d.loadTable heap capacity = some d' ∧ d'.Wf [] ∧ ∀ j, d'.lookup j = none := by
  have hwf {pipes : List (Option ℕ)} (hlen : capacity ≤ pipes.length)
      (hfree : ∀ j, { d with pipes, pipesCapacity := capacity }.lookup j = none) :
      Wf { d with pipes, pipesCapacity := capacity } [] := by
    refine ⟨⟨hlen, hlt, fun hr => ?_, fun hp => ?_⟩, h.holds⟩
    · simp [hfree] at hr
    · simp [show content d.wanted.pipes _ = none from hempty _] at hp
  rw [PipeDevice.loadTable]
  split_ifs with hgrow hgrant
  · right
    have hfree (j : ℕ) : lookup
        { d with pipes := List.replicate capacity none, pipesCapacity := capacity } j = none := by
      simp only [lookup, getElem?_replicate]
      split_ifs <;> rfl
    exact ⟨_, rfl, hwf (by simp) hfree, hfree⟩
  · exact .inl rfl
  · right
    have hfree (j : ℕ) : lookup { d with pipesCapacity := capacity } j = none := by
      simp only [lookup]
      split_ifs with hj
      · have := hnone j
        rwa [lookup, if_pos (by omega)] at this
      · rfl
    exact ⟨d.pipes, rfl, hwf (le_trans (by omega) h.table.length_le) hfree, hfree⟩

/-- What loading the image of the device `d` can come to: memory runs out, or it fails and
no pipe is wanted, or every pipe is wanted for what it was in `d`. -/
inductive Loads (d : PipeDevice) (xs : List ℕ) (q : LoadRequest) :
    Checked (PipeDevice × Bool) → Prop
  | outOfMemory : Loads d xs q (.error .outOfMemory)
  | failed {d' : PipeDevice} (hwf : d'.Wf [])
    (hbuffer : d'.signalledPipeBuffer = q.mapsSignalled) : Loads d xs q (.ok (d', false))
  | loaded {d' : PipeDevice} {ys : List ℕ} (hwf : d'.Wf ys)
    (hbuffer : d'.signalledPipeBuffer = true)
    (hwants : ∀ id k, Wants d xs id k → Wants d' ys id k) : Loads d xs q (.ok (d', true))

theorem loadImage {img : Image} (hrec : Records img d xs) (q : LoadRequest) (h : d0.Wf [])
    (hnone : ∀ j, d0.lookup j = none) (hcap : d0.pipesCapacity = img.pipesCapacity)
    (hbuffer : d0.signalledPipeBuffer = true) (hmaps : q.mapsSignalled = true) : Loads d xs q (do
      let (d, closing) ← PipeDevice.loadPipes q img.pipes d0
      match closing with
      | none => return (d, false)
      | some ids =>
        let (d, ok) ← PipeDevice.loadWanted img.wanted d
        if ok = false then return (d, false)
        else
          let d ← PipeDevice.closeLoaded ids d
          return (d, true)) := by
  have hload := loadPipes q h hrec.nodup fun sp hsp =>
    ⟨by rw [hcap]; exact hrec.lt_capacity sp hsp, hnone sp.id⟩
  generalize PipeDevice.loadPipes q img.pipes d0 = x at hload
  cases hload with
  | outOfMemory => exact .outOfMemory
  | @failed d1 hwf hfront =>
    refine .failed hwf ?_
    rw [hmaps, ← hbuffer]
    exact congrArg (fun f => f.2.2.2.1) hfront
  | @restored d1 closing hres hclosing =>
    have hopen {i : ℕ} (hi : i ∈ img.pipes.map SavedPipe.id) : ∃ r, d1.lookup i = some r := by
      obtain ⟨sp, hsp, rfl⟩ := List.mem_map.mp hi
      obtain ⟨r, p, hr, -⟩ := hres.loaded sp hsp
      exact ⟨r, hr⟩
    obtain ⟨w, ys, hwanted, hwf, hsame, -, hall⟩ :=
      loadWanted hres.wf fun i hi => hopen (hrec.wanted_mem i hi)
    obtain ⟨w', zs, hclose, hwf', hkeep⟩ := hwf.closeLoaded fun i hi => hopen (hclosing i hi)
    simp only [ok_bind, hwanted]
    rw [if_neg (by simp), hclose]
    have hmapped : d1.signalledPipeBuffer = true := by
      rw [← hbuffer]
      exact congrArg (fun f => f.2.2.2.1) hres.front_eq
    refine .loaded hwf' hmapped fun id k hw => hkeep id k ?_
    -- the pipe was saved with its flags, and its id is among the wanted ones
    obtain ⟨r, p, hr, hp, hmem, hflag⟩ := hw
    obtain ⟨sp, hsp, rfl, hflags⟩ := hrec.pipes hr hp
    obtain ⟨r', p', hr', hp', hflags'⟩ := hres.loaded sp hsp
    refine ⟨r', p', hr', (congrFun hsame r').trans hp', ?_, by rw [hflags', hflags, hflag]⟩
    exact hall sp.id (hrec.wanted hr hmem) r' hr'

theorem load {img : Image} (hrec : Records img d xs) (q : LoadRequest)
    {zs : List ℕ} (h : d0.Wf zs) : Loads d xs q (d0.load img q) := by
  have htable : TableOk { d0 with wanted.first := none } := h.table.congr rfl rfl rfl
  obtain ⟨pipes, store, hclose, hok, hnone, hempty⟩ := htable.closeAll
  rw [PipeDevice.load, hclose, ok_bind]
  have hwf (size : ℕ) (addr addr' : UInt64) (mapped opened : Bool) : Wf { d0 with
        pipes
        wanted := ⟨store, none⟩
        signalledPipeBufferSize := size
        signalledPipeBufferAddr := addr
        signalledPipeBuffer := mapped
        openCommandAddr := addr'
        openCommand := opened } [] :=
    ⟨hok.congr rfl rfl rfl, WantedList.Holds.empty hempty rfl⟩
  by_cases hmaps : q.mapsSignalled = false
  · rw [if_pos hmaps]
    exact .failed (hwf ..) rfl
  rw [if_neg hmaps]
  by_cases hopen : q.mapsOpenCommand = false
  · rw [if_pos hopen]
    exact .failed (hwf ..) rfl
  rw [if_neg hopen]
  have hmaps : q.mapsSignalled = true := by simpa using hmaps
  rcases (hwf img.signalledPipeBufferSize img.signalledPipeBufferAddr img.openCommandAddr
      q.mapsSignalled q.mapsOpenCommand).loadTable hnone hempty q.heap hrec.capacity_lt with
    hnomem | ⟨pipes', htable', hwf', hnone'⟩
  · rw [hnomem]
    exact .failed (hwf ..) rfl
  rw [htable']
  simp only
  by_cases hgrant : q.heap.grants (4 * img.pipes.length) = false
  · rw [if_pos hgrant]
    exact .failed hwf' rfl
  rw [if_neg hgrant]
  exact loadImage hrec q hwf' hnone' rfl hmaps hmaps

theorem saveThenLoad (h : d.Wf xs) (fresh : Option Heap) (q : LoadRequest) :
    (d.saveThenLoad fresh q).Ensures
      (fun p => ∃ ys, p.1.Wf ys ∧ (ys ≠ [] → p.1.irq = true) ∧
        (q.mapsSignalled = true → p.1.signalledPipeBuffer = true) ∧
        (p.2 = true → ∀ id k, Wants d xs id k → Wants p.1 ys id k))
      (fun f => f = .outOfMemory ∨ f = .exit) := by
  obtain ⟨img, hsave, hrec⟩ := h.save
  have htarget : (d.loadTarget fresh).Ensures (fun d0 => ∃ zs, d0.Wf zs)
      (fun f => f = .outOfMemory ∨ f = .exit) := by
    cases fresh with
    | none => exact ⟨xs, h⟩
    | some heap =>
      rw [loadTarget]
      rcases realize_cases heap with hexit | ⟨d0, hd0, hwf, -⟩
      · rw [hexit]
        exact .inr rfl
      · rw [hd0]
        exact ⟨[], hwf⟩
  rw [PipeDevice.saveThenLoad, hsave]
  refine htarget.bind fun d0 _ ⟨zs, hzs⟩ => ?_
  have hload := load hrec q hzs
  generalize d0.load img q = x at hload
  cases hload with
  | outOfMemory => exact .inl rfl
  | failed hwf hbuffer =>
    exact ⟨[], hwf, fun hne => absurd rfl hne, fun hmaps => hbuffer.trans hmaps, by simp⟩
  | @loaded d' ys hwf hbuffer hwants =>
    exact ⟨ys, ⟨hwf.table.congr rfl rfl rfl, hwf.holds⟩, fun _ => rfl, fun _ => hbuffer,
      fun _ => hwants⟩

end Wf

end AndroidEmu.Pipe.PipeDevice
