import AndroidEmu.RamSnapshot.GapRuns
import AndroidEmu.RamSnapshot.RamSaver
import AndroidEmu.Math.Allotment

/-!
# The space of a RAM file

The bytes of a RAM file between its first eight and its index are held by pages or free in gaps. The
argument is made once, for any relation `T` between a gap tracker and the free bytes that meets
`SpaceRules`: for `Holds`, by which gaps lie in the free bytes, and for `Represents`, by which gaps
are exactly the free bytes.
-/

namespace AndroidEmu.RamSnapshot

open CS Math Checked List Function GapTracker Except

/-! ### Batches -/

section Batches

variable {α : Type}

theorem flatten_cut (size : ℕ) (xs part : List α) : (cut size xs part).flatten = part ++ xs := by
  induction xs generalizing part with
  | nil => by_cases hpart : part = [] <;> simp [cut, hpart]
  | cons x xs ih =>
    rw [cut]
    split_ifs with hsize
    · rw [flatten_cons, ih, append_assoc]
      rfl
    · rw [ih, append_assoc]
      rfl

theorem arrange_perm (order : List ℕ) (xs : List α) : (arrange order xs).Perm xs := by
  have hall : (range xs.length).filterMap (fun i => xs[i]?) = xs := by
    induction xs using reverseRecOn with
    | nil => rfl
    | append_singleton xs x ih =>
      rw [length_append, length_singleton, range_succ, filterMap_append]
      have hleft : (range xs.length).filterMap (fun i => (xs ++ [x])[i]?) =
          (range xs.length).filterMap fun i => xs[i]? :=
        filterMap_congr fun i hi => getElem?_append_left (mem_range.mp hi)
      rw [hleft, ih]
      simp
  rw [arrange]
  split_ifs with horder
  · have hperm := horder.filterMap fun i => xs[i]?
    rwa [hall] at hperm
  · exact .refl xs

variable {blocks : List SaverBlock} {id : PageId}

theorem flatten_batches (blocks : List SaverBlock) :
    (batches blocks).flatten = blocks.zipIdx.flatMap fun p =>
      p.1.nonzeroChangedPages.map fun i => (p.2, i) := by
  rw [batches]
  induction blocks.zipIdx with
  | nil => rfl
  | cons p ps ih =>
    rw [flatMap_cons, flatten_append, ih, flatMap_cons, ← map_flatten, flatten_cut, nil_append]

theorem mem_batches : id ∈ (batches blocks).flatten ↔
    ∃ b page, blocks[id.1]? = some b ∧ b.pages[id.2]? = some page ∧ page.changed = true := by
  simp only [flatten_batches, mem_flatMap, mem_map, Prod.exists, mem_zipIdx_iff_getElem?,
    SaverBlock.nonzeroChangedPages, mem_filter, mem_range, Option.any_eq_true]
  constructor
  · rintro ⟨b, i, hb, j, ⟨hj, page, hpage, hchanged⟩, rfl⟩
    exact ⟨b, page, hb, hpage, hchanged⟩
  · rintro ⟨b, page, hb, hpage, hchanged⟩
    exact ⟨b, id.1, hb, id.2, ⟨(List.getElem?_eq_some_iff.mp hpage).1, page, hpage, hchanged⟩, rfl⟩

theorem nodup_batches (blocks : List SaverBlock) : (batches blocks).flatten.Nodup := by
  rw [flatten_batches, nodup_flatMap]
  refine ⟨fun p _ => ?_, ?_⟩
  · refine Nodup.map (fun i j hij => congrArg Prod.snd hij) ?_
    exact nodup_range.filter _
  · have hne : blocks.zipIdx.Pairwise fun p q => p.2 ≠ q.2 := by
      have hsnd : (blocks.zipIdx.map Prod.snd).Nodup := by
        rw [zipIdx_map_snd]
        exact nodup_range'
      exact pairwise_map.mp hsnd
    refine hne.imp fun {p q} hpq => ?_
    simp only [onFun, disjoint_left, mem_map]
    rintro id ⟨i, -, rfl⟩ ⟨j, -, hj⟩
    exact hpq (congrArg Prod.fst hj).symm

end Batches

/-! ### Trackers -/

/-- What a relation between a tracker and the free bytes has to keep. Some additions need not fit
into the sizes the tracker keeps. -/
structure SpaceRules (T : GenericGapTracker → Set ℤ → Prop)
    (fits : GenericGapTracker → ℤ → ℤ → Prop) : Prop where
  init : T {} ∅
  add : ∀ {t F s n}, T t F → fits t s n → 0 < n → n < 2 ^ 31 → Gaps.Disjoint F s n →
    (∀ x ∈ Gaps.addRange F s n, 0 ≤ x ∧ x < 2 ^ 63) →
    ∃ t', t.add s n = .ok t' ∧ T t' (Gaps.addRange F s n)
  allocate : ∀ {t F n}, T t F → 0 < n → t.allocate n = .ok (t, none) ∨
    ∃ pos t', t.allocate n = .ok (t', some pos) ∧ Set.Ico pos (pos + n) ⊆ F ∧
      T t' (Gaps.takeRange F pos n)
  reload : ∀ {t t' F}, T t F → t.reload = .ok t' → T t' F

variable {t : GenericGapTracker}

theorem GenericGapTracker.Holds.valid {F : Set ℤ} (h : t.Holds F) : t.Valid where
  toConsistent := h.toConsistent
  isPosition p hp := h.positions p.1 (h.within.start_mem p hp)

theorem holds_rules : SpaceRules GenericGapTracker.Holds fun _ _ _ => True where
  init := GenericGapTracker.Represents.init.toHolds
  add h _ hn hn' hout hfile := h.add hn hn' hout hfile
  allocate h hn := h.allocate hn
  reload {t t' F} h hreload := by
    by_cases hstore : t.Storable
    · obtain rfl : t = t' := ok.inj ((h.valid.reload hstore).symm.trans hreload)
      exact h
    obtain ⟨rfl, -⟩ := h.valid.reload_of_not_storable hstore hreload
    exact {
      toConsistent := GenericGapTracker.Valid.init.toConsistent
      within := ⟨by simp, by simp, by simp, by simp⟩
      positions := h.positions }

theorem represents_rules :
    SpaceRules GenericGapTracker.Represents fun t s n => t.joinedSize s n < 2 ^ 31 where
  init := GenericGapTracker.Represents.init
  add {t F s n} h hfits hn hn' hout hfile := by
    have hlo := (hfile s (.inr ⟨le_rfl, by omega⟩)).1
    have hhi := (hfile (s + n - 1) (.inr ⟨by omega, by omega⟩)).2
    obtain ⟨t', hadd, hrep, -⟩ := h.addLocked hn hn' hout (by omega) (by omega)
    refine ⟨t', ?_, hrep hfits⟩
    rw [GenericGapTracker.add, if_neg (by omega), hadd]
  allocate h hn := by
    rcases h.allocate hn with ⟨hnone, -⟩ | ⟨p, t', hsmall, halloc, hrep⟩
    · exact .inl hnone
    · refine .inr ⟨p.1, t', halloc, fun x hx => ?_, hrep⟩
      have := hsmall.le
      exact h.tracks.subset p hsmall.mem ⟨hx.1, by have := hx.2; omega⟩
  reload {t t' F} h hreload := by
    have hvalid := h.toHolds.valid
    by_cases hstore : t.Storable
    · obtain rfl : t = t' := ok.inj ((hvalid.reload hstore).symm.trans hreload)
      exact h
    -- sizes are positive, so there are fewer of them than wrap around
    obtain ⟨-, hmax⟩ := hvalid.reload_of_not_storable hstore hreload
    obtain ⟨g, hg, hlt⟩ := (hvalid.exists_size hmax (c := 1) (by norm_num)).2
    obtain ⟨s, hs⟩ := exists_mem_of_ne_nil _ (hvalid.isGroup g hg).ne_nil
    have hpos := h.tracks.pos (s, g.1) ((h.indexed.mem_iff s g.1).mpr ⟨g.2, hg, hs⟩)
    omega

/-! ### Places of pages -/

def IndexPage.range (page : IndexPage) : Set ℤ :=
  Set.Ico page.filePos (page.filePos + page.sizeOnDisk)

variable {page loaderPage p : IndexPage}

theorem IndexPage.range_eq_empty (h : page.sizeOnDisk = 0) : page.range = ∅ := by
  simp [IndexPage.range, h]

theorem IndexPage.filePos_mem_range (h : page.sizeOnDisk ≠ 0) :
    page.filePos ∈ page.range := ⟨le_rfl, by omega⟩

/-- The place of a page during a save. A page at position zero has none. -/
def SaverPage.place (page : SaverPage) : Set ℤ := if page.filePos = 0 then ∅ else page.range

variable {pos a n : ℤ}

theorem SaverPage.place_moveTo {page : SaverPage} (hpos : pos ≠ 0) :
    (page.moveTo pos).place = Set.Ico pos (pos + page.sizeOnDisk) := if_neg hpos

/-- The place that a page has in the file of the loader. -/
def SaverPage.oldPlace (page : SaverPage) : Set ℤ :=
  match page.loaderPage with
  | none => ∅
  | some loaderPage => loaderPage.range

/-- What the first loop makes a gap of a page. -/
def SaverPage.released (page : SaverPage) : Option (ℤ × ℤ) :=
  match page.loaderPage with
  | none => none
  | some loaderPage =>
    if page.sizeOnDisk < loaderPage.sizeOnDisk then
      some (loaderPage.filePos + page.sizeOnDisk, loaderPage.sizeOnDisk - page.sizeOnDisk)
    else if loaderPage.sizeOnDisk < page.sizeOnDisk ∧ loaderPage.sizeOnDisk ≠ 0 then
      some (loaderPage.filePos, loaderPage.sizeOnDisk)
    else none

/-- In a file without compression, sizes and positions are those of whole pages. -/
def IndexPage.Whole (page : IndexPage) : Prop :=
  page.sizeOnDisk = 0 ∨
    page.sizeOnDisk = kDefaultPageSize ∧ (page.filePos = 0 ∨ page.filePos % kDefaultPageSize = 8)

/-- The relation of the tracker of a save to the free bytes. Gaps of one size never occur. -/
def HasGaps (T : GenericGapTracker → Set ℤ → Prop) (compressed : Bool) :
    Option GapTracker → Set ℤ → Prop
  | none, F => F = ∅
  | some (.generic t), F => compressed = true ∧ T t F
  | some (.oneSize t), F => compressed = false ∧ t = {} ∧ F = ∅

variable {s' : Saver}

namespace Saver

variable {s : Saver} {id : PageId} {page page' : SaverPage}

theorem page_eq_ok : s.page id = .ok page ↔
    ∃ b, s.blocks[id.1]? = some b ∧ b.pages[id.2]? = some page := by
  simp only [Saver.page, bind_eq_ok, readAt_eq_ok]

theorem page_setPage_self (h : s.page id = .ok page) (page' : SaverPage) :
    (s.setPage id page').page id = .ok page' := by
  obtain ⟨b, hb, hpage⟩ := page_eq_ok.mp h
  refine page_eq_ok.mpr ⟨{ b with pages := b.pages.set id.2 page' }, ?_, ?_⟩
  · simp [setPage, hb]
  · rw [List.getElem?_set_self (List.getElem?_eq_some_iff.mp hpage).1]

theorem page_setPage_of_ne {id' : PageId} (hne : id' ≠ id) (page' : SaverPage) :
    (s.setPage id page').page id' = s.page id' := by
  rw [Saver.page, Saver.page, readAt, readAt, setPage, getElem?_modify]
  by_cases hblock : id.1 = id'.1
  · have hpage : id.2 ≠ id'.2 := fun heq => hne (Prod.ext hblock.symm heq.symm)
    cases hb : s.blocks[id'.1]? with
    | none => simp
    | some b => simp [hblock, readAt, getElem?_set_ne hpage]
  · simp [hblock]

open Classical in
/-- What a page holds. A page that has not been looked at by `writePage` holds its old place. -/
noncomputable def held (s : Saver) (pending : Set PageId) (id : PageId) : Set ℤ :=
  match s.page id with
  | .ok page => if id ∈ pending then page.oldPlace else page.place
  | .error _ => ∅

theorem held_of_mem {pending : Set PageId} (h : s.page id = .ok page) (hid : id ∈ pending) :
    s.held pending id = page.oldPlace := by
  simp [held, h, hid]

theorem held_of_notMem {pending : Set PageId} (h : s.page id = .ok page) (hid : id ∉ pending) :
    s.held pending id = page.place := by
  simp [held, h, hid]

/-- The state of a save, with the pages that `writePage` has not looked at and those that wait for
a place. -/
structure Tracks (T : GenericGapTracker → Set ℤ → Prop) (full : Prop) (compressed : Bool)
    (pending waiting : Set PageId) (s : Saver) : Prop where
  start : 8 ≤ s.currentStreamPos ∧ s.currentStreamPos < 2 ^ 63
  space : ∃ F, HasGaps T compressed s.gaps F ∧
    Allotment (s.held pending) F (Set.Ico 8 s.currentStreamPos) ∧
    (full → Allotment.Full (s.held pending) F (Set.Ico 8 s.currentStreamPos))
  whole : compressed = false → s.currentStreamPos % kDefaultPageSize = 8 ∧
    ∀ id page, s.page id = .ok page → page.Whole ∧ ∀ loaderPage ∈ page.loaderPage, loaderPage.Whole
  tracker : ∀ id page, s.page id = .ok page → page.loaderPage.isSome → s.gaps.isSome
  pending_subset : pending ⊆ waiting
  exists_page : ∀ id ∈ waiting, ∃ page, s.page id = .ok page ∧ page.sizeOnDisk ≠ 0 ∧
    (id ∈ pending → page.filePos = 0)
  placed : ∀ id page, s.page id = .ok page → id ∉ waiting → page.sizeOnDisk ≠ 0 → page.filePos ≠ 0

variable {T : GenericGapTracker → Set ℤ → Prop} {fits : GenericGapTracker → ℤ → ℤ → Prop}
  {full : Prop} {compressed : Bool} {pending waiting waiting' : Set PageId}

theorem held_setPage (hpage : s.page id = .ok page) (page' : SaverPage) (pending : Set PageId) :
    (s.setPage id page').held (pending \ {id}) =
      Function.update (s.held pending) id page'.place := by
  funext id'
  by_cases hid : id' = id
  · subst hid
    rw [update_self]
    exact held_of_notMem (page_setPage_self hpage page') fun h => h.2 rfl
  have hmem : id' ∈ pending \ {id} ↔ id' ∈ pending := ⟨And.left, fun h => ⟨h, hid⟩⟩
  rw [update_of_ne hid]
  cases hp : s.page id' with
  | error f => simp only [held, page_setPage_of_ne hid, hp]
  | ok p =>
    by_cases hpending : id' ∈ pending
    · rw [held_of_mem ((page_setPage_of_ne hid page').trans hp) (hmem.mpr hpending),
        held_of_mem hp hpending]
    · rw [held_of_notMem ((page_setPage_of_ne hid page').trans hp) (mt hmem.mp hpending),
        held_of_notMem hp hpending]

theorem Tracks.setPage (h : s.Tracks T full compressed pending waiting) (page' : SaverPage)
    (gaps : Option GapTracker) (pos : ℤ) (hpage : s.page id = .ok page)
    (hstart : 8 ≤ pos ∧ pos < 2 ^ 63)
    (hspace : ∃ F, HasGaps T compressed gaps F ∧
      Allotment (Function.update (s.held pending) id page'.place) F (Set.Ico 8 pos) ∧
      (full → Allotment.Full (Function.update (s.held pending) id page'.place) F (Set.Ico 8 pos)))
    (hwhole : compressed = false → pos % kDefaultPageSize = 8 ∧ page'.Whole)
    (hloader : page'.loaderPage = page.loaderPage) (htracker : s.gaps.isSome → gaps.isSome)
    (hsub : pending \ {id} ⊆ waiting') (hwaiting : ∀ id' ≠ id, id' ∈ waiting' ↔ id' ∈ waiting)
    (hsize : page'.sizeOnDisk ≠ 0) (hplaced : id ∉ waiting' → page'.filePos ≠ 0) :
    ({ s.setPage id page' with gaps := gaps, currentStreamPos := pos } : Saver).Tracks T full
      compressed (pending \ {id}) waiting' where
  start := hstart
  space := by
    rw [← held_setPage hpage] at hspace
    exact hspace
  whole hc := by
    refine ⟨(hwhole hc).1, fun id' p hp => ?_⟩
    by_cases hid : id' = id
    · subst hid
      obtain rfl : page' = p := ok.inj ((page_setPage_self hpage page').symm.trans hp)
      exact ⟨(hwhole hc).2, hloader ▸ ((h.whole hc).2 id' page hpage).2⟩
    · exact (h.whole hc).2 id' p ((page_setPage_of_ne hid page').symm.trans hp)
  tracker id' p hp hsome := by
    by_cases hid : id' = id
    · subst hid
      obtain rfl : page' = p := ok.inj ((page_setPage_self hpage page').symm.trans hp)
      exact htracker (h.tracker id' page hpage (hloader ▸ hsome))
    · exact htracker (h.tracker id' p ((page_setPage_of_ne hid page').symm.trans hp) hsome)
  pending_subset := hsub
  exists_page id' hid' := by
    by_cases hid : id' = id
    · subst hid
      exact ⟨page', page_setPage_self hpage page', hsize, fun hmem => absurd rfl hmem.2⟩
    · obtain ⟨p, hp, hps, hzero⟩ := h.exists_page id' ((hwaiting id' hid).mp hid')
      exact ⟨p, (page_setPage_of_ne hid page').trans hp, hps, fun hmem => hzero hmem.1⟩
  placed id' p hp hid' hps := by
    by_cases hid : id' = id
    · subst hid
      obtain rfl : page' = p := ok.inj ((page_setPage_self hpage page').symm.trans hp)
      exact hplaced hid'
    · exact h.placed id' p ((page_setPage_of_ne hid page').symm.trans hp)
        (fun hmem => hid' ((hwaiting id' hid).mpr hmem)) hps

/-! ### Loops of `writePage` -/

theorem addPart (rules : SpaceRules T fits) {F : Set ℤ} {held : PageId → Set ℤ} (hT : T t F)
    (hfits : fits t a n) (hallot : Allotment held F (Set.Ico 8 pos)) (hpos : pos < 2 ^ 63)
    (hpart : Set.Ico a (a + n) ⊆ held id) (hn : 0 < n) (hn' : n < 2 ^ 31) :
    ∃ t', t.add a n = .ok t' ∧ T t' (F ∪ Set.Ico a (a + n)) := by
  refine rules.add hT hfits hn hn' (fun x hx hF => ?_) fun x hx => ?_
  · exact Set.disjoint_left.mp (hallot.held_free id) (hpart hx) hF
  · have hx : x ∈ Set.Ico 8 pos := hx.elim (fun hF => hallot.free_subset hF) fun hp =>
      hallot.held_subset id (hpart hp)
    exact ⟨by have := hx.1; omega, hx.2.trans hpos⟩

theorem setPage_self (hpage : s.page id = .ok page) : s.setPage id page = s := by
  obtain ⟨b, hb, hp⟩ := page_eq_ok.mp hpage
  obtain ⟨hlt, hget⟩ := List.getElem?_eq_some_iff.mp hp
  have hblocks : s.blocks.modify id.1 (fun b => { b with pages := b.pages.set id.2 page }) =
      s.blocks := by
    refine ext_getElem? fun i => ?_
    by_cases hi : id.1 = i
    · subst hi
      simp [hb, ← hget]
    · simp [hi]
  rw [Saver.setPage, hblocks]

theorem Tracks.keepPage (h : s.Tracks T full compressed pending waiting)
    (hpage : s.page id = .ok page) (hid : id ∈ waiting) (hheld : s.held pending id = page.place) :
    s.Tracks T full compressed (pending \ {id}) waiting := by
  obtain ⟨page1, hpage1, hsize, -⟩ := h.exists_page id hid
  obtain rfl : page1 = page := ok.inj (hpage1.symm.trans hpage)
  have hsub : pending \ {id} ⊆ waiting := fun j hj => h.pending_subset hj.1
  have hkeep := h.setPage page1 s.gaps _ hpage h.start
    (by rw [← hheld, update_eq_self]; exact h.space)
    (fun hc => ⟨(h.whole hc).1, ((h.whole hc).2 id page1 hpage).1⟩) rfl (fun hsome => hsome) hsub
    (fun _ _ => Iff.rfl) hsize fun hnot => absurd hid hnot
  rwa [setPage_self hpage] at hkeep

/-- The gap that the first loop adds for a page fits. -/
def ReleaseFits (fits : GenericGapTracker → ℤ → ℤ → Prop) (s : Saver) (id : PageId) : Prop :=
  ∀ page ∈ (s.page id).toOption, ∀ t ∈ s.gaps.bind GapTracker.generic?, ∀ gap ∈ page.released,
    fits t gap.1 gap.2

instance (s : Saver) (id : PageId) [∀ t a n, Decidable (fits t a n)] :
    Decidable (s.ReleaseFits fits id) :=
  inferInstanceAs (Decidable (∀ page ∈ (s.page id).toOption, _))

section

variable (h : s.Tracks T full compressed pending waiting)

include h

theorem Tracks.generic (hpage : s.page id = .ok page) (hsize : page.sizeOnDisk ≠ 0)
    (hloader : page.loaderPage = some loaderPage) (hne : loaderPage.sizeOnDisk ≠ 0)
    (hdiff : page.sizeOnDisk ≠ loaderPage.sizeOnDisk) :
    compressed = true ∧ ∃ t, s.gaps = some (.generic t) := by
  have hc : compressed = true := by
    by_contra hc
    obtain ⟨hwhole, hold⟩ := (h.whole (by simpa using hc)).2 id page hpage
    have hold := hold loaderPage hloader
    rcases hwhole with hzero | ⟨heq, -⟩
    · exact hsize hzero
    rcases hold with hzero | ⟨heq', -⟩
    · exact hne hzero
    exact hdiff (heq.trans heq'.symm)
  obtain ⟨gaps, hsome⟩ := Option.isSome_iff_exists.mp (h.tracker id page hpage (by simp [hloader]))
  obtain ⟨F, hgaps, -⟩ := h.space
  rw [hsome] at hgaps
  cases gaps with
  | generic t => exact ⟨hc, t, hsome⟩
  | oneSize t => exact absurd hgaps.1 (by simp [hc])

theorem Tracks.range_bounds (hheld : s.held pending id = p.range) (hne : p.sizeOnDisk ≠ 0) :
    8 ≤ p.filePos ∧ p.filePos + p.sizeOnDisk ≤ s.currentStreamPos := by
  obtain ⟨F, -, hallot, -⟩ := h.space
  have hsub := hheld ▸ hallot.held_subset id
  have hfirst := hsub (IndexPage.filePos_mem_range hne)
  have hlast := hsub (show p.filePos + p.sizeOnDisk - 1 ∈ p.range from ⟨by omega, by omega⟩)
  exact ⟨hfirst.1, by have := hlast.2; omega⟩

theorem Tracks.release (rules : SpaceRules T fits) (page' : SaverPage) (hid : id ∈ waiting)
    (hpage : s.page id = .ok page) (hc : compressed = true) (hgaps : s.gaps = some (.generic t))
    (hfits : fits t a n) (hpart : Set.Ico a (a + n) ⊆ s.held pending id) (hn : 0 < n)
    (hn' : n < 2 ^ 31) (hplace : page'.place = s.held pending id \ Set.Ico a (a + n))
    (hloader : page'.loaderPage = page.loaderPage) (hsize : page'.sizeOnDisk ≠ 0) :
    ∃ t', t.add a n = .ok t' ∧
      ({ s.setPage id page' with gaps := some (.generic t') } : Saver).Tracks T full compressed
        (pending \ {id}) waiting := by
  obtain ⟨F, hF, hallot, hfull⟩ := h.space
  rw [hgaps] at hF
  obtain ⟨t', hadd, hT'⟩ := addPart rules hF.2 hfits hallot h.start.2 hpart hn hn'
  refine ⟨t', hadd, h.setPage page' _ _ hpage h.start ?_ (by simp [hc]) hloader (fun _ => rfl)
    (fun j hj => h.pending_subset hj.1) (fun _ _ => Iff.rfl) hsize fun hnot => absurd hid hnot⟩
  rw [hplace]
  exact ⟨_, ⟨hc, hT'⟩, hallot.release hpart, fun hf => (hfull hf).release _⟩

end

open SaverPage

section

variable (h : s.Tracks T full compressed pending waiting)

include h

theorem Tracks.releasePage (rules : SpaceRules T fits) (hid : id ∈ pending)
    (hfits : s.ReleaseFits fits id) :
    ∃ s', s.releasePage id = .ok (s', ()) ∧ s'.Tracks T full compressed (pending \ {id}) waiting ∧
      s'.gaps.isSome = s.gaps.isSome := by
  have hwaiting := h.pending_subset hid
  obtain ⟨page, hpage, hsize, hzero⟩ := h.exists_page id hwaiting
  have hzero := hzero hid
  have hheld := held_of_mem hpage hid
  have hplace : page.place = ∅ := if_pos hzero
  rw [Saver.releasePage, hpage, ok_bind]
  cases hloader : page.loaderPage with
  | none =>
    have hold : page.oldPlace = page.place := by rw [oldPlace, hloader, hplace]
    exact ⟨s, rfl, h.keepPage hpage hwaiting (hheld.trans hold), rfl⟩
  | some loaderPage =>
    have hold : page.oldPlace = loaderPage.range := by rw [oldPlace, hloader]
    rw [hold] at hheld
    have hlt := loaderPage.sizeOnDisk_lt
    have hpos := h.start.2
    dsimp only
    split_ifs with hle hless hne
    · -- the page keeps its place and the rest becomes a gap
      obtain ⟨hc, t, hgaps⟩ := h.generic hpage hsize hloader (by omega) (by omega)
      obtain ⟨hlo, hhi⟩ := h.range_bounds hheld (by omega)
      have hreleased : page.released = some (loaderPage.filePos + page.sizeOnDisk,
          (loaderPage.sizeOnDisk - page.sizeOnDisk : ℤ)) := by simp [released, hloader, hless]
      have hfits := hfits page (by rw [hpage]; rfl) t (by rw [hgaps]; rfl)
      obtain ⟨t', hadd, htracks⟩ := h.release rules (page.moveTo loaderPage.filePos)
        hwaiting hpage hc hgaps (hfits _ hreleased) (by
          rw [hheld]
          exact Set.Ico_subset_Ico (by omega) (by omega)) (by omega) (by omega) (by
          rw [hheld, place_moveTo (by omega)]
          ext x
          simp only [IndexPage.range, Set.mem_sdiff, Set.mem_Ico]
          omega) rfl hsize
      refine ⟨_, ?_, htracks, by simp [hgaps]⟩
      rw [addGap, wrapInt64_of_bounds (by omega) (by omega)]
      simp only [Saver.setPage, hgaps, add, hadd]
      rfl
    · -- the page has the size it had
      obtain ⟨hlo, hhi⟩ := h.range_bounds hheld (by omega)
      have hsame : (page.moveTo loaderPage.filePos).place = s.held pending id := by
        rw [hheld, place_moveTo (by omega), IndexPage.range,
          show page.sizeOnDisk = loaderPage.sizeOnDisk by omega]
      refine ⟨_, rfl, h.setPage (page.moveTo loaderPage.filePos) s.gaps _ hpage h.start ?_
        (fun hc => ?_) rfl (fun hsome => hsome) (fun j hj => h.pending_subset hj.1)
        (fun _ _ => Iff.rfl) hsize fun hnot => absurd hwaiting hnot, rfl⟩
      · rw [hsame, update_eq_self]
        exact h.space
      · obtain ⟨hstart, hwhole⟩ := h.whole hc
        refine ⟨hstart, ?_⟩
        have hold := (hwhole id page hpage).2 loaderPage hloader
        rwa [IndexPage.Whole, ← show page.sizeOnDisk = loaderPage.sizeOnDisk by omega] at hold
    · -- the page has grown and leaves its place
      obtain ⟨hc, t, hgaps⟩ := h.generic hpage hsize hloader hne (by omega)
      have hreleased : page.released = some (loaderPage.filePos, (loaderPage.sizeOnDisk : ℤ)) := by
        simp only [released, hloader]
        rw [if_neg (by omega), if_pos ⟨by omega, hne⟩]
      have hfits := hfits page (by rw [hpage]; rfl) t (by rw [hgaps]; rfl)
      obtain ⟨t', hadd, htracks⟩ := h.release rules page hwaiting hpage hc hgaps
        (hfits _ hreleased) (by rw [hheld]; exact subset_rfl) (by omega) (by omega) (by
          rw [hheld, hplace]
          exact Set.sdiff_self.symm) rfl hsize
      rw [setPage_self hpage] at htracks
      refine ⟨_, ?_, htracks, by simp [hgaps]⟩
      simp only [addGap, hgaps, add, hadd]
      rfl
    · -- the page was zero
      have hnone : loaderPage.sizeOnDisk = 0 := by simpa using hne
      rw [IndexPage.range_eq_empty hnone, ← hplace] at hheld
      exact ⟨s, rfl, h.keepPage hpage hwaiting hheld, rfl⟩

theorem Tracks.allocatePage (rules : SpaceRules T fits) (hid : id ∈ waiting) (hnot : id ∉ pending)
    (hsome : s.gaps.isSome) :
    ∃ s', s.allocatePage id = .ok (s', ()) ∧ s'.Tracks T full compressed pending waiting ∧
      s'.gaps.isSome := by
  obtain ⟨page, hpage, hsize, -⟩ := h.exists_page id hid
  obtain ⟨gaps, hgaps⟩ := Option.isSome_iff_exists.mp hsome
  rw [Saver.allocatePage, hpage, ok_bind]
  split_ifs with hzero
  · have hheld : s.held pending id = ∅ := (held_of_notMem hpage hnot).trans (if_pos hzero)
    obtain ⟨F, hF, hallot, hfull⟩ := h.space
    rw [hgaps] at hF ⊢
    cases gaps with
    | oneSize t =>
      obtain ⟨-, rfl, -⟩ := hF
      refine ⟨s, ?_, h, hsome⟩
      cases s
      cases hgaps
      rfl
    | generic t =>
      rcases rules.allocate hF.2 (show (0 : ℤ) < page.sizeOnDisk by omega) with
        hnone | ⟨pos, t', hsome, hsub, hT'⟩
      · refine ⟨s, ?_, h, by simp [hgaps]⟩
        cases s
        cases hgaps
        simp only [allocate, hnone]
        rfl
      have hpos : 8 ≤ pos := (hallot.free_subset (hsub ⟨le_rfl, by omega⟩)).1
      refine ⟨{ s.setPage id (page.moveTo pos) with gaps := some (.generic t') }, ?_, ?_, rfl⟩
      · simp only [allocate, hsome]
        rfl
      · have htracks := h.setPage (page.moveTo pos) (some (.generic t')) _ hpage h.start
          ⟨_, ⟨hF.1, hT'⟩, by
            rw [place_moveTo (by omega)]
            exact ⟨hallot.take hheld hsub, fun hf => (hfull hf).take hheld _⟩⟩
          (fun hc => absurd hF.1 (by simp [hc])) rfl (fun _ => rfl)
          (fun j hj => h.pending_subset hj.1) (fun _ _ => Iff.rfl) hsize
          fun hnotin => absurd hid hnotin
        rwa [Set.sdiff_singleton_eq_self hnot] at htracks
  · exact ⟨s, rfl, h, hsome⟩

theorem Tracks.appendPage (hid : id ∈ waiting)
    (hnot : id ∉ pending) (happend : s.appendPage id = .ok (s', ())) :
    s'.Tracks T full compressed pending (waiting \ {id}) ∧ s'.gaps = s.gaps := by
  obtain ⟨page, hpage, hsize, -⟩ := h.exists_page id hid
  have hsub : pending \ {id} ⊆ waiting \ {id} := Set.sdiff_subset_sdiff_left h.pending_subset
  have hsame : ∀ id' ≠ id, id' ∈ waiting \ {id} ↔ id' ∈ waiting := fun id' hne =>
    ⟨And.left, fun hmem => ⟨hmem, hne⟩⟩
  rw [Saver.appendPage, hpage, ok_bind] at happend
  dsimp only at happend
  split_ifs at happend with hzero hlt
  · obtain rfl := (pair_inj happend).1
    refine ⟨?_, rfl⟩
    obtain ⟨hlo, hhi⟩ := h.start
    have hheld : s.held pending id = ∅ := (held_of_notMem hpage hnot).trans (if_pos hzero)
    obtain ⟨F, hF, hallot, hfull⟩ := h.space
    have hspace : Set.Ico 8 (s.currentStreamPos + page.sizeOnDisk) = Set.Ico 8 s.currentStreamPos ∪
        Set.Ico s.currentStreamPos (s.currentStreamPos + page.sizeOnDisk) :=
      (Set.Ico_union_Ico_eq_Ico hlo (by omega)).symm
    have hnew : Disjoint (Set.Ico s.currentStreamPos (s.currentStreamPos + page.sizeOnDisk))
        (Set.Ico 8 s.currentStreamPos) :=
      Set.disjoint_left.mpr fun x hx hx' => absurd hx'.2 (not_lt.mpr hx.1)
    have htracks := h.setPage (page.moveTo s.currentStreamPos) s.gaps
      (s.currentStreamPos + page.sizeOnDisk) hpage ⟨by omega, hlt⟩
      ⟨F, hF, by
        rw [place_moveTo (by omega), hspace]
        exact ⟨hallot.grow hheld hnew, fun hf => (hfull hf).grow hheld _⟩⟩
      (fun hc => ?_) rfl (fun hsome => hsome) hsub hsame hsize
      fun _ => show s.currentStreamPos ≠ 0 by omega
    · rwa [Set.sdiff_singleton_eq_self hnot] at htracks
    · obtain ⟨hmod, hwhole⟩ := h.whole hc
      have hsize' : page.sizeOnDisk = kDefaultPageSize :=
        ((hwhole id page hpage).1.resolve_left hsize).1
      refine ⟨?_, .inr ⟨hsize', .inr hmod⟩⟩
      rw [hsize', Int.add_emod_right, hmod]
  · obtain rfl := (pair_inj happend).1
    refine ⟨?_, rfl⟩
    exact { h with
      pending_subset := by rwa [Set.sdiff_singleton_eq_self hnot] at hsub
      exists_page := fun id' hid' => h.exists_page id' hid'.1
      placed := fun id' p hp hid' hps => by
        by_cases heq : id' = id
        · subst heq
          obtain rfl : page = p := ok.inj (hpage.symm.trans hp)
          exact hzero
        · exact h.placed id' p hp (fun hmem => hid' ⟨hmem, heq⟩) hps }

end

variable {ram : ℕ → ℕ → Content}

theorem compressPage_cases (hcompress : s.compressPage compressed ram id = .ok (s', ())) :
    ∃ page page', s.page id = .ok page ∧ s' = s.setPage id page' ∧ page'.sizeOnDisk ≠ 0 ∧
      page'.filePos = page.filePos ∧ page'.loaderPage = page.loaderPage ∧
      (compressed = false → page'.sizeOnDisk = kDefaultPageSize) := by
  obtain ⟨page, hpage, hrest⟩ := bind_eq_ok.mp hcompress
  have hdefault : kDefaultPageSize ≠ 0 := by decide
  refine ⟨page, ?_⟩
  dsimp only at hrest
  split_ifs at hrest with hc hlarge
  · obtain ⟨-, -, hret⟩ := bind_eq_ok.mp hrest
    exact ⟨_, hpage, (pair_inj hret).1.symm, hdefault, rfl, rfl, fun _ => rfl⟩
  · obtain ⟨⟨⟩, hpos, hret⟩ := bind_eq_ok.mp hrest
    have hpos := check_eq_ok.mp hpos
    exact ⟨_, hpage, (pair_inj hret).1.symm, hpos.ne', rfl, rfl, by simp [hc]⟩
  · exact ⟨_, hpage, (pair_inj hrest).1.symm, hdefault, rfl, rfl, fun _ => rfl⟩

theorem Tracks.compressPage (h : s.Tracks T full compressed pending waiting) (hid : id ∈ pending)
    (hcompress : s.compressPage compressed ram id = .ok (s', ())) :
    s'.Tracks T full compressed pending waiting ∧ s'.gaps = s.gaps := by
  obtain ⟨page, page', hpage, rfl, hsize, hpos, hloader, hwhole⟩ := compressPage_cases hcompress
  have hself := page_setPage_self hpage page'
  have hheld : (s.setPage id page').held pending = s.held pending := by
    funext id'
    by_cases heq : id' = id
    · subst heq
      rw [held_of_mem hself hid, held_of_mem hpage hid, oldPlace, oldPlace, hloader]
    · simp only [held, page_setPage_of_ne heq]
  -- a page of the new state is the one that was set or an old one
  have hcases : ∀ {id' p}, (s.setPage id page').page id' = .ok p →
      (id' = id ∧ p = page') ∨ (id' ≠ id ∧ s.page id' = .ok p) := by
    intro id' p hp
    by_cases heq : id' = id
    · subst heq
      exact .inl ⟨rfl, ok.inj (hp.symm.trans hself)⟩
    · exact .inr ⟨heq, (page_setPage_of_ne heq page').symm.trans hp⟩
  refine ⟨?_, rfl⟩
  exact {
    start := h.start
    space := by
      rw [hheld]
      exact h.space
    whole := fun hc => by
      refine ⟨(h.whole hc).1, fun id' p hp => ?_⟩
      rcases hcases hp with ⟨rfl, rfl⟩ | ⟨-, hp⟩
      · obtain ⟨page1, hpage1, -, hzero⟩ := h.exists_page id' (h.pending_subset hid)
        obtain rfl : page1 = page := ok.inj (hpage1.symm.trans hpage)
        exact ⟨.inr ⟨hwhole hc, .inl (hpos.trans (hzero hid))⟩,
          hloader ▸ ((h.whole hc).2 id' page1 hpage).2⟩
      · exact (h.whole hc).2 id' p hp
    tracker := fun id' p hp hsome => by
      rcases hcases hp with ⟨rfl, rfl⟩ | ⟨-, hp⟩
      · exact h.tracker id' page hpage (hloader ▸ hsome)
      · exact h.tracker id' p hp hsome
    pending_subset := h.pending_subset
    exists_page := fun id' hid' => by
      obtain ⟨p, hp, hps, hzero⟩ := h.exists_page id' hid'
      by_cases heq : id' = id
      · subst heq
        obtain rfl : p = page := ok.inj (hp.symm.trans hpage)
        exact ⟨page', hself, hsize, fun hmem => hpos.trans (hzero hmem)⟩
      · exact ⟨p, (page_setPage_of_ne heq page').trans hp, hps, hzero⟩
    placed := fun id' p hp hid' hps => by
      rcases hcases hp with ⟨rfl, rfl⟩ | ⟨-, hp⟩
      · exact absurd (h.pending_subset hid) hid'
      · exact h.placed id' p hp hid' hps }

/-! ### Batches -/

def ids (l : List PageId) : Set PageId := {id | id ∈ l}

theorem ids_cons_sdiff {l : List PageId} (hid : id ∉ l) : ids (id :: l) \ {id} = ids l := by
  ext id'
  constructor
  · rintro ⟨hmem, hne⟩
    exact (mem_cons.mp hmem).resolve_left hne
  · intro hmem
    exact ⟨mem_cons_of_mem id hmem, fun heq => hid (heq ▸ hmem)⟩

variable {batch later : List PageId} {s' : Saver}

theorem Tracks.run_compressPage (h : s.Tracks T full compressed (ids (batch ++ later)) waiting)
    (hrun : (run (Saver.compressPage compressed ram) s batch).2 = .ok s') :
    s'.Tracks T full compressed (ids (batch ++ later)) waiting ∧ s'.gaps = s.gaps := by
  refine (run_loop (P := fun s1 rest => (∀ id ∈ rest, id ∈ batch) ∧
    s1.Tracks T full compressed (ids (batch ++ later)) waiting ∧ s1.gaps = s.gaps) ?_ batch
    ⟨fun _ hid => hid, h, rfl⟩ hrun).2
  rintro s1 id rest s2 ⟨⟩ ⟨hrest, htracks, hgaps⟩ hstep
  obtain ⟨hid, hrest⟩ := forall_mem_cons.mp hrest
  obtain ⟨htracks', hgaps'⟩ := htracks.compressPage (mem_append_left later hid) hstep
  exact ⟨hrest, htracks', hgaps'.trans hgaps⟩

theorem Tracks.run_releasePage (rules : SpaceRules T fits) (hnodup : (batch ++ later).Nodup)
    (h : s.Tracks T full compressed (ids (batch ++ later)) waiting)
    (hfits : Meets Saver.releasePage (ReleaseFits fits) s batch)
    (hrun : (run Saver.releasePage s batch).2 = .ok s') :
    s'.Tracks T full compressed (ids later) waiting ∧ s'.gaps.isSome = s.gaps.isSome := by
  refine (run_loop (P := fun s1 rest => (rest ++ later).Nodup ∧
    Meets Saver.releasePage (ReleaseFits fits) s1 rest ∧
    s1.Tracks T full compressed (ids (rest ++ later)) waiting ∧
    s1.gaps.isSome = s.gaps.isSome) ?_ batch ⟨hnodup, hfits, h, rfl⟩ hrun).2.2
  rintro s1 id rest s2 ⟨⟩ ⟨hnodup, hfits, htracks, hgaps⟩ hstep
  rw [cons_append, nodup_cons] at hnodup
  obtain ⟨hid, hnodup⟩ := hnodup
  obtain ⟨s3, hstep', htracks', hgaps'⟩ :=
    htracks.releasePage rules (mem_cons_self ..) hfits.1
  obtain rfl : s3 = s2 := congrArg Prod.fst (ok.inj (hstep'.symm.trans hstep))
  rw [cons_append, ids_cons_sdiff hid] at htracks'
  exact ⟨hnodup, hfits.2 s3 () hstep, htracks', hgaps'.trans hgaps⟩

theorem Tracks.run_allocatePage (rules : SpaceRules T fits) (hnodup : (batch ++ later).Nodup)
    (h : s.Tracks T full compressed (ids later) (ids (batch ++ later))) (hsome : s.gaps.isSome)
    (hrun : (run Saver.allocatePage s batch).2 = .ok s') :
    s'.Tracks T full compressed (ids later) (ids (batch ++ later)) ∧ s'.gaps.isSome := by
  refine (run_loop (P := fun s1 rest => (∀ id ∈ rest, id ∈ batch) ∧
    s1.Tracks T full compressed (ids later) (ids (batch ++ later)) ∧ s1.gaps.isSome) ?_ batch
    ⟨fun _ hid => hid, h, hsome⟩ hrun).2
  rintro s1 id rest s2 ⟨⟩ ⟨hrest, htracks, hgaps⟩ hstep
  obtain ⟨hid, hrest⟩ := forall_mem_cons.mp hrest
  have hnot : id ∉ ids later := (nodup_append'.mp hnodup).2.2 hid
  obtain ⟨s3, hstep', htracks', hgaps'⟩ :=
    htracks.allocatePage rules (mem_append_left later hid) hnot hgaps
  obtain rfl : s3 = s2 := congrArg Prod.fst (ok.inj (hstep'.symm.trans hstep))
  exact ⟨hrest, htracks', hgaps'⟩

theorem Tracks.run_appendPage (hnodup : (batch ++ later).Nodup)
    (h : s.Tracks T full compressed (ids later) (ids (batch ++ later)))
    (hrun : (run Saver.appendPage s batch).2 = .ok s') :
    s'.Tracks T full compressed (ids later) (ids later) ∧ s'.gaps = s.gaps := by
  refine (run_loop (P := fun s1 rest => (rest ++ later).Nodup ∧
    s1.Tracks T full compressed (ids later) (ids (rest ++ later)) ∧ s1.gaps = s.gaps) ?_ batch
    ⟨hnodup, h, rfl⟩ hrun).2
  rintro s1 id rest s2 ⟨⟩ ⟨hnodup, htracks, hgaps⟩ hstep
  rw [cons_append, nodup_cons] at hnodup
  obtain ⟨hid, hnodup⟩ := hnodup
  obtain ⟨htracks', hgaps'⟩ := htracks.appendPage (mem_cons_self ..)
    (fun hmem => hid (mem_append_right rest hmem)) hstep
  rw [cons_append, ids_cons_sdiff hid] at htracks'
  exact ⟨hnodup, htracks', hgaps'.trans hgaps⟩

theorem Tracks.skip_release (hnone : s.gaps = none) (hnodup : (batch ++ later).Nodup)
    (h : s.Tracks T full compressed (ids (batch ++ later)) waiting) :
    s.Tracks T full compressed (ids later) waiting := by
  induction batch with
  | nil => exact h
  | cons id rest ih =>
    rw [cons_append, nodup_cons] at hnodup
    have hmem : id ∈ ids (id :: (rest ++ later)) := mem_cons_self ..
    obtain ⟨page, hpage, -, hzero⟩ := h.exists_page id (h.pending_subset hmem)
    have hloader : page.loaderPage = none := by
      by_contra hsome
      have := h.tracker id page hpage (Option.isSome_iff_ne_none.mpr hsome)
      simp [hnone] at this
    have hplace : page.oldPlace = page.place := by
      rw [oldPlace, hloader, place, if_pos (hzero hmem)]
    have hkeep := h.keepPage hpage (h.pending_subset hmem) ((held_of_mem hpage hmem).trans hplace)
    rw [cons_append, ids_cons_sdiff hnodup.1] at hkeep
    exact ih hnodup.2 hkeep

/-- The gaps that a batch adds fit. -/
def BatchFits (fits : GenericGapTracker → ℤ → ℤ → Prop) (compressed : Bool)
    (ram : ℕ → ℕ → Content) (s : Saver) (batch : List PageId) : Prop :=
  ∀ s' ∈ (run (Saver.compressPage compressed ram) s batch).2.toOption,
    Meets Saver.releasePage (ReleaseFits fits) s' batch

instance (s : Saver) (ram : ℕ → ℕ → Content) (batch : List PageId)
    [∀ t a n, Decidable (fits t a n)] : Decidable (s.BatchFits fits compressed ram batch) :=
  inferInstanceAs (Decidable (∀ s' ∈ (run (Saver.compressPage compressed ram) s batch).2.toOption,
    Meets Saver.releasePage (ReleaseFits fits) s' batch))

theorem Tracks.saveBatch (rules : SpaceRules T fits) (hnodup : (batch ++ later).Nodup)
    (h : s.Tracks T full compressed (ids (batch ++ later)) (ids (batch ++ later)))
    (hfits : s.gaps.isSome → s.BatchFits fits compressed ram batch)
    (hsave : s.saveBatch compressed ram batch = .ok (s', ())) :
    s'.Tracks T full compressed (ids later) (ids later) ∧ s'.gaps.isSome = s.gaps.isSome := by
  obtain ⟨s1, hcompress, hrest⟩ := bind_eq_ok.mp hsave
  obtain ⟨s2, hwrite, hret⟩ := bind_eq_ok.mp hrest
  obtain rfl : s2 = s' := congrArg Prod.fst (ok.inj hret)
  obtain ⟨h1, hgaps1⟩ := h.run_compressPage hcompress
  rw [← hgaps1] at hfits
  rw [Saver.writePage] at hwrite
  cases hgaps : s1.gaps with
  | none =>
    rw [hgaps, if_neg (by simp)] at hwrite
    obtain ⟨h2, hgaps2⟩ := (h1.skip_release hgaps hnodup).run_appendPage hnodup hwrite
    exact ⟨h2, by rw [hgaps2, hgaps1]⟩
  | some gaps =>
    rw [hgaps, if_pos (by simp)] at hwrite
    obtain ⟨s3, hrelease, hrest⟩ := bind_eq_ok.mp hwrite
    obtain ⟨s4, hallocate, happend⟩ := bind_eq_ok.mp hrest
    have hsome1 : s1.gaps.isSome := by rw [hgaps]; rfl
    obtain ⟨h3, hsome3⟩ := h1.run_releasePage rules hnodup
      (hfits hsome1 s1 (by rw [hcompress]; rfl)) hrelease
    obtain ⟨h4, hsome4⟩ := h3.run_allocatePage rules hnodup (hsome3.trans hsome1) hallocate
    obtain ⟨h2, hgaps2⟩ := h4.run_appendPage hnodup happend
    exact ⟨h2, by rw [hgaps2, hsome4, ← hgaps1, hsome1]⟩

theorem Tracks.run_saveBatch (rules : SpaceRules T fits)
    {batches : List (List PageId)} (hnodup : batches.flatten.Nodup)
    (h : s.Tracks T full compressed (ids batches.flatten) (ids batches.flatten))
    (hfits : s.gaps.isSome →
      Meets (Saver.saveBatch compressed ram) (BatchFits fits compressed ram) s batches)
    (hrun : (run (Saver.saveBatch compressed ram) s batches).2 = .ok s') :
    s'.Tracks T full compressed (ids []) (ids []) := by
  refine (run_loop (P := fun s1 rest => rest.flatten.Nodup ∧ (s1.gaps.isSome →
    Meets (Saver.saveBatch compressed ram) (BatchFits fits compressed ram) s1 rest) ∧
    s1.Tracks T full compressed (ids rest.flatten) (ids rest.flatten)) ?_ batches
    ⟨hnodup, hfits, h⟩ hrun).2.2
  rintro s1 batch rest s2 ⟨⟩ ⟨hnodup, hfits, htracks⟩ hstep
  obtain ⟨htracks', hsome⟩ :=
    htracks.saveBatch rules hnodup (fun hgaps => (hfits hgaps).1) hstep
  exact ⟨hnodup.of_append_right, fun hgaps => (hfits (hsome ▸ hgaps)).2 s2 () hstep, htracks'⟩

end Saver

end AndroidEmu.RamSnapshot
