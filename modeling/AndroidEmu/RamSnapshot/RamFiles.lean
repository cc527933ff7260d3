import AndroidEmu.RamSnapshot.RamSpace

/-!
# RAM files over many saves

What a page holds when it was compared with its old version is its old place or nothing, so places
stay apart. A page that has become zero holds nothing, and nobody adds its old place to the gaps.
-/

namespace AndroidEmu.RamSnapshot

open CS Math Checked List Option GapTracker Set Except

/-! ### Files -/

namespace Saved

def page (file : Saved) (id : PageId) : Option IndexPage :=
  file.index.blocks[id.1]?.bind fun b => b.pages[id.2]?

def held (file : Saved) (id : PageId) : Set ℤ :=
  match file.page id with
  | none => ∅
  | some page => page.range

end Saved

/-- The relation of a tracker to the free bytes of a file. -/
def SavedGaps (T : GenericGapTracker → Set ℤ → Prop) (compressed : Bool) : GapTracker → Set ℤ → Prop
  | .generic t, F => compressed = true ∧ T t F
  | .oneSize t, F => t = {} ∧ F = ∅

/-- The places of pages in a file. -/
structure Saved.Laid (T : GenericGapTracker → Set ℤ → Prop) (full : Prop) (file : Saved) :
    Prop where
  start : 8 ≤ file.index.startPosInFile
  space : ∃ F, SavedGaps T file.index.compressed file.gaps F ∧
    Allotment file.held F (Set.Ico 8 file.index.startPosInFile) ∧
    (full → Allotment.Full file.held F (Set.Ico 8 file.index.startPosInFile))
  whole : file.index.compressed = false → file.index.startPosInFile % kDefaultPageSize = 8 ∧
    ∀ id page, file.page id = some page → page.Whole

variable {T : GenericGapTracker → Set ℤ → Prop} {fits : GenericGapTracker → ℤ → ℤ → Prop}
  {full : Prop} {compressed async : Bool} {s : Saver} {file file' : Saved} {F : Set ℤ}
  {gaps gaps' : GapTracker}

theorem SavedGaps.reload (rules : SpaceRules T fits) (h : SavedGaps T compressed gaps F)
    (hreload : gaps.reload compressed = .ok gaps') : HasGaps T compressed (some gaps') F := by
  cases gaps with
  | oneSize t =>
    obtain ⟨rfl, rfl⟩ := h
    cases compressed with
    | true =>
      obtain rfl : generic {} = gaps' := ok.inj hreload
      exact ⟨rfl, rules.init⟩
    | false =>
      obtain rfl : oneSize {} = gaps' := ok.inj hreload
      exact ⟨rfl, rfl, rfl⟩
  | generic t =>
    obtain ⟨rfl, hT⟩ := h
    obtain ⟨bytes, hsave, hrest⟩ := bind_eq_ok.mp hreload
    obtain ⟨⟨g, rest⟩, hload, hret⟩ := bind_eq_ok.mp hrest
    obtain rfl : g = gaps' := ok.inj hret
    obtain ⟨⟨t', rest'⟩, hload', hret'⟩ := bind_eq_ok.mp hload
    obtain rfl : .generic t' = g := congrArg Prod.fst (ok.inj hret')
    refine ⟨rfl, rules.reload hT ?_⟩
    rw [GenericGapTracker.reload, show t.save = .ok bytes from hsave, ok_bind, hload']
    rfl

theorem HasGaps.saved {gaps : Option GapTracker} (h : HasGaps T compressed gaps F) :
    SavedGaps T compressed (gaps.getD (.oneSize {})) F := by
  match gaps with
  | none => exact ⟨rfl, h⟩
  | some (.generic t) => exact h
  | some (.oneSize t) => exact h.2

theorem finish_spec (hfinish : finish compressed async s = .ok file) :
    file.index.compressed = compressed ∧ file.index.startPosInFile = s.currentStreamPos ∧
      file.gaps = s.gaps.getD (.oneSize {}) ∧ writeIndex file.index = .ok file.bytes ∧
      ∀ id page, file.page id = some page ↔
        ∃ saverPage, s.page id = .ok saverPage ∧ saverPage.toIndexPage = page := by
  rw [finish] at hfinish
  split_ifs at hfinish with hlt
  obtain ⟨bytes, hbytes, hret⟩ := bind_eq_ok.mp hfinish
  obtain rfl := ok.inj hret
  refine ⟨rfl, rfl, rfl, hbytes, fun id page => ?_⟩
  simp only [Saved.page, getElem?_map, bind_eq_some_iff, map_eq_some_iff, Saver.page_eq_ok]
  constructor
  · rintro ⟨-, ⟨b, hb, rfl⟩, hpage⟩
    rw [SaverBlock.toIndexBlock, getElem?_map, map_eq_some_iff] at hpage
    obtain ⟨saverPage, hsaver, rfl⟩ := hpage
    exact ⟨saverPage, ⟨b, hb, hsaver⟩, rfl⟩
  · rintro ⟨saverPage, ⟨b, hb, hsaver⟩, rfl⟩
    exact ⟨_, ⟨b, hb, rfl⟩, by rw [SaverBlock.toIndexBlock, getElem?_map, hsaver]; rfl⟩

theorem Saver.Tracks.finish (h : s.Tracks T full compressed (Saver.ids []) (Saver.ids []))
    (hfinish : finish compressed async s = .ok file) : file.Laid T full := by
  obtain ⟨hcompressed, hstart, hgaps, -, hpages⟩ := finish_spec hfinish
  have hheld : file.held = s.held (Saver.ids []) := by
    funext id
    cases hpage : s.page id with
    | error f =>
      have hnone : file.page id = none := by
        refine eq_none_iff_forall_ne_some.mpr fun page heq => ?_
        obtain ⟨saverPage, hsaver, -⟩ := (hpages id page).mp heq
        rw [hpage] at hsaver
        cases hsaver
      simp only [Saved.held, hnone, Saver.held, hpage]
    | ok page =>
      rw [Saved.held, (hpages id _).mpr ⟨page, hpage, rfl⟩, Saver.held_of_notMem hpage not_mem_nil]
      by_cases hsize : page.sizeOnDisk = 0
      · simp only [SaverPage.place, IndexPage.range_eq_empty hsize, ite_self]
      · exact (if_neg (h.placed id page hpage not_mem_nil hsize)).symm
  obtain ⟨F, hF, hspace⟩ := h.space
  exact {
    start := hstart ▸ h.start.1
    space := ⟨F, by rw [hcompressed, hgaps]; exact hF.saved, by rw [hheld, hstart]; exact hspace⟩
    whole := fun hc => by
      rw [hcompressed] at hc
      refine ⟨hstart ▸ (h.whole hc).1, fun id page hpage => ?_⟩
      obtain ⟨saverPage, hsaver, rfl⟩ := (hpages id page).mp hpage
      exact ((h.whole hc).2 id saverPage hsaver).1 }

/-! ### Comparing pages -/

section Compare

variable {c : Content} {page loaderPage q : IndexPage} {saverPage saverPage' : SaverPage}
  {onDemand : Bool}  {blocks : List IndexBlock} {blockIndex pageIndex : ℕ} {id : Bytes}

theorem IndexPage.sizeOnDisk_reread (page : IndexPage) :
    page.reread.sizeOnDisk = page.sizeOnDisk := by
  rw [IndexPage.reread]
  split_ifs <;> rfl

theorem IndexPage.reread_of_ne_zero (h : page.sizeOnDisk ≠ 0) : page.reread = page := if_neg h

theorem IndexPage.range_reread (page : IndexPage) : page.reread.range = page.range := by
  by_cases hsize : page.sizeOnDisk = 0
  · rw [IndexPage.range_eq_empty hsize,
      IndexPage.range_eq_empty (page.sizeOnDisk_reread.trans hsize)]
  · rw [IndexPage.reread_of_ne_zero hsize]

theorem IndexPage.Whole.reread (h : page.Whole) : page.reread.Whole := by
  by_cases hsize : page.sizeOnDisk = 0
  · exact .inl (page.sizeOnDisk_reread.trans hsize)
  · rwa [IndexPage.reread_of_ne_zero hsize]

/-- How a page compares with the one the loader has: it is the same and has its place, or it has
changed and has none. -/
def SaverPage.Compared (page : SaverPage) (loaderPage : IndexPage) : Prop :=
  (page.same = true ∧ page.sizeOnDisk = loaderPage.sizeOnDisk ∧
      (loaderPage.sizeOnDisk ≠ 0 → page.filePos = loaderPage.filePos)) ∨
    (page.same = false ∧ page.filePos = 0 ∧
      (page.sizeOnDisk = 0 ∨ page.sizeOnDisk = kDefaultPageSize))

theorem classifyPage_none
    (h : classifyPage none onDemand blockIndex id c pageIndex = .ok saverPage) :
    saverPage.same = false ∧ saverPage.filePos = 0 ∧ saverPage.loaderPage = none ∧
      (saverPage.sizeOnDisk = 0 ∨ saverPage.sizeOnDisk = kDefaultPageSize) := by
  obtain rfl := ok.inj h
  have hsize :
      (newPage c none).sizeOnDisk = 0 ∨ (newPage c none).sizeOnDisk = kDefaultPageSize := by
    simp only [newPage]
    split_ifs <;> simp
  rw [hashPage]
  split_ifs
  · exact ⟨rfl, rfl, rfl, hsize⟩
  · exact ⟨rfl, rfl, rfl, hsize⟩

theorem findPage_eq_some (h : findPage blocks blockIndex id pageIndex = .ok (some q)) :
    ∃ b page, blocks[blockIndex]? = some b ∧ b.pages[pageIndex]? = some page ∧ q = page.reread := by
  rw [findPage] at h
  cases hb : blocks[blockIndex]? with
  | none => simp [hb] at h
  | some b =>
    rw [hb] at h
    obtain ⟨-, -, hrest⟩ := bind_eq_ok.mp h
    split_ifs at hrest
    · simp at hrest
    · obtain ⟨page, hpage, hret⟩ := bind_eq_ok.mp hrest
      exact ⟨b, page, rfl, readAt_eq_ok.mp hpage, (some.inj (ok.inj hret)).symm⟩

theorem keepUnloaded_of_unloaded (hpage : saverPage.loaderPage = some q)
    (h : onDemand = true ∧ c.loaded = false) :
    (keepUnloaded onDemand c saverPage).loaderPage = some q ∧
      (keepUnloaded onDemand c saverPage).same = true ∧
      (keepUnloaded onDemand c saverPage).sizeOnDisk = q.sizeOnDisk ∧
      (keepUnloaded onDemand c saverPage).filePos = q.filePos ∧
      (q.sizeOnDisk ≠ 0 → (keepUnloaded onDemand c saverPage).hash = q.hash ∧
        (keepUnloaded onDemand c saverPage).hashFilled = true) := by
  rw [keepUnloaded, hpage]
  dsimp only
  rw [if_pos (by simp [h])]
  split_ifs with hsize
  · exact ⟨rfl, rfl, rfl, rfl, fun _ => ⟨rfl, rfl⟩⟩
  · exact ⟨rfl, rfl, rfl, rfl, fun hne => absurd hne hsize⟩

theorem hashPage_spec (c : Content) (saverPage : SaverPage) :
    (hashPage c saverPage).loaderPage = saverPage.loaderPage ∧
      (hashPage c saverPage).same = saverPage.same ∧
      (hashPage c saverPage).sizeOnDisk = saverPage.sizeOnDisk ∧
      (hashPage c saverPage).filePos = saverPage.filePos := by
  rw [hashPage]
  split_ifs <;> exact ⟨rfl, rfl, rfl, rfl⟩

theorem comparePage_spec (h : comparePage saverPage = .ok saverPage')
    (hpage : saverPage.loaderPage = some q) :
    saverPage'.loaderPage = some q ∧
      ((saverPage'.same = true ∧ saverPage'.sizeOnDisk = q.sizeOnDisk ∧
        (q.sizeOnDisk ≠ 0 → saverPage'.filePos = q.filePos)) ∨
      (saverPage' = saverPage ∧ saverPage.hash ≠ q.hash ∧
        ¬ (q.sizeOnDisk = 0 ∧ saverPage.sizeOnDisk = 0))) := by
  rw [comparePage, hpage] at h
  dsimp only at h
  split_ifs at h with hzero hhash
  · obtain rfl := ok.inj h
    exact ⟨rfl, .inl ⟨rfl, hzero.2.trans hzero.1.symm, fun hne => absurd hzero.1 hne⟩⟩
  · obtain rfl := ok.inj h
    exact ⟨rfl, .inl ⟨rfl, rfl, fun _ => rfl⟩⟩
  · obtain rfl := ok.inj h
    exact ⟨hpage, .inr ⟨rfl, hhash, hzero⟩⟩

theorem classifyPage_some
    (h : classifyPage (some blocks) onDemand blockIndex id c pageIndex = .ok saverPage) :
    ∃ b page, blocks[blockIndex]? = some b ∧ b.pages[pageIndex]? = some page ∧
      saverPage.loaderPage = some page.reread ∧ saverPage.Compared page.reread ∧
      (page.sizeOnDisk ≠ 0 → c.zero = false ∨ onDemand = true ∧ c.loaded = false →
        saverPage.sizeOnDisk ≠ 0) := by
  obtain ⟨lp, hfind, hcompare⟩ := bind_eq_ok.mp h
  cases lp with
  | none =>
    have hnone : (hashPage c (keepUnloaded onDemand c (newPage c none))).loaderPage = none :=
      (hashPage_spec c _).1
    rw [comparePage, hnone] at hcompare
    cases hcompare
  | some q =>
    obtain ⟨b, page, hb, hpage, rfl⟩ := findPage_eq_some hfind
    refine ⟨b, page, hb, hpage, ?_⟩
    rw [← page.sizeOnDisk_reread]
    generalize page.reread = q at hcompare ⊢
    obtain ⟨hloader, hsame, hsize, hpos⟩ :=
      hashPage_spec c (keepUnloaded onDemand c (newPage c (some q)))
    by_cases hunloaded : onDemand = true ∧ c.loaded = false
    · -- a page that is not loaded has the hash of the loader's
      obtain ⟨hl, hs, hz, hp, hh⟩ := keepUnloaded_of_unloaded (c := c)
        (show (newPage c (some q)).loaderPage = some q from rfl) hunloaded
      obtain ⟨hl', hcases⟩ := comparePage_spec hcompare (hloader.trans hl)
      refine ⟨hl', ?_⟩
      rcases hcases with hcase | ⟨-, hne, hnz⟩
      · exact ⟨.inl hcase, fun hq _ => hcase.2.1 ▸ hq⟩
      · have hq : q.sizeOnDisk ≠ 0 := fun hq => hnz ⟨hq, hsize.trans (hz.trans hq)⟩
        refine absurd ?_ hne
        rw [hashPage, if_neg (by simp [(hh hq).2]), (hh hq).1]
    · have hkeep : keepUnloaded onDemand c (newPage c (some q)) = newPage c (some q) := by
        exact if_neg (by simpa using hunloaded)
      rw [hkeep] at hloader hsame hsize hpos hcompare
      have hnew : (newPage c (some q)).sizeOnDisk = 0 ∨
          (newPage c (some q)).sizeOnDisk = kDefaultPageSize := by
        simp only [newPage]
        split_ifs <;> simp
      obtain ⟨hl', hcases⟩ := comparePage_spec hcompare hloader
      refine ⟨hl', ?_⟩
      rcases hcases with hcase | ⟨rfl, -, -⟩
      · exact ⟨.inl hcase, fun hq _ => hcase.2.1 ▸ hq⟩
      · refine ⟨.inr ⟨hsame, hpos, by rwa [hsize]⟩, fun _ hc => ?_⟩
        rw [hsize, newPage]
        simp [hc.resolve_right hunloaded, kDefaultPageSize]

end Compare

/-! ### The start of a save -/

variable {x : SaveInput} {loader : Option (List IndexBlock)} {blocks : List SaverBlock}
  {id : PageId}

theorem saveBlocks_page (h : saveBlocks loader x = .ok blocks) {b : SaverBlock} {page : SaverPage}
    (hb : blocks[id.1]? = some b) (hpage : b.pages[id.2]? = some page) :
    ∃ ramBlock, x.blocks[id.1]? = some ramBlock ∧
      classifyPage loader x.onDemand id.1 ramBlock.id (x.ram id.1 id.2) id.2 = .ok page := by
  obtain ⟨-, hall⟩ := tabulate_eq_ok.mp h
  obtain ⟨ramBlock, hread, hsave⟩ := bind_eq_ok.mp (hall id.1 b hb)
  refine ⟨ramBlock, readAt_eq_ok.mp hread, ?_⟩
  rw [savePage] at hsave
  split_ifs at hsave
  · obtain rfl := ok.inj hsave
    simp at hpage
  · obtain ⟨-, -, hrest⟩ := bind_eq_ok.mp hsave
    obtain ⟨pages, hpages, hret⟩ := bind_eq_ok.mp hrest
    obtain rfl := ok.inj hret
    exact (tabulate_eq_ok.mp hpages).2 id.2 page hpage

theorem saveBlocks_exists (h : saveBlocks loader x = .ok blocks) {ramBlock : RamBlock}
    (hblock : x.blocks[id.1]? = some ramBlock) (hskip : ramBlock.skipped x.async = false)
    (hlt : id.2 < ramBlock.totalSize / kDefaultPageSize) :
    ∃ b page, blocks[id.1]? = some b ∧ b.pages[id.2]? = some page := by
  obtain ⟨hlen, hall⟩ := tabulate_eq_ok.mp h
  obtain ⟨hid, -⟩ := List.getElem?_eq_some_iff.mp hblock
  obtain ⟨b, hb⟩ : ∃ b, blocks[id.1]? = some b := ⟨_, getElem?_eq_getElem (by omega)⟩
  obtain ⟨ramBlock', hread, hsave⟩ := bind_eq_ok.mp (hall id.1 b hb)
  obtain rfl : ramBlock = ramBlock' := some.inj (hblock.symm.trans (readAt_eq_ok.mp hread))
  rw [savePage, hskip, if_neg (by simp)] at hsave
  obtain ⟨-, -, hrest⟩ := bind_eq_ok.mp hsave
  obtain ⟨pages, hpages, hret⟩ := bind_eq_ok.mp hrest
  obtain rfl := ok.inj hret
  have hpageCount := (tabulate_eq_ok.mp hpages).1
  exact ⟨_, pages[id.2], hb, getElem?_eq_getElem _⟩

namespace Saved

/-- Every page of a file that is not zero is looked at and is not zero now. -/
def KeepsPages (file : Saved) (x : SaveInput) : Prop :=
  ∀ i < file.index.blocks.length, ∀ b ∈ file.index.blocks[i]?, ∀ j < b.pages.length,
    ∀ page ∈ b.pages[j]?, page.sizeOnDisk ≠ 0 →
      ∃ ramBlock ∈ x.blocks[i]?, ramBlock.skipped x.async = false ∧
        j < ramBlock.totalSize / kDefaultPageSize ∧
        ((x.ram i j).zero = false ∨ x.onDemand = true ∧ (x.ram i j).loaded = false)

instance (file : Saved) (x : SaveInput) : Decidable (file.KeepsPages x) :=
  inferInstanceAs (Decidable (∀ i < file.index.blocks.length, _))

theorem page_eq_some {page : IndexPage} : file.page id = some page ↔
    ∃ b, file.index.blocks[id.1]? = some b ∧ b.pages[id.2]? = some page := by
  simp only [Saved.page, bind_eq_some_iff]

theorem held_of_page {page : IndexPage} (h : file.page id = some page) :
    file.held id = page.range := by
  simp only [held, h]

variable {gaps : GapTracker} {todo : List PageId}

open SaverPage

section

variable (h : file.Laid T full) (hblocks : saveBlocks (some file.index.blocks) x = .ok blocks)
    (htodo : ∀ id, id ∈ todo ↔
      ∃ b page, blocks[id.1]? = some b ∧ b.pages[id.2]? = some page ∧ page.changed = true)
    {s : Saver} (hs : s.blocks = blocks)

include h hblocks htodo hs

/-- What a page of an incremental save holds at the start is what it had, or nothing if it has
become zero. -/
theorem Laid.held_page {saverPage : SaverPage} (hpage : s.page id = .ok saverPage) :
    ∃ page, file.page id = some page ∧ saverPage.loaderPage = some page.reread ∧
      saverPage.Compared page.reread ∧
      (s.held (Saver.ids todo) id = page.range ∨
        saverPage.sizeOnDisk = 0 ∧ s.held (Saver.ids todo) id = ∅) := by
  obtain ⟨b, hb, hp⟩ := Saver.page_eq_ok.mp hpage
  rw [hs] at hb
  obtain ⟨ramBlock, -, hclassify⟩ := saveBlocks_page hblocks hb hp
  obtain ⟨ib, page, hib, hip, hloader, hcompared, -⟩ := classifyPage_some hclassify
  have hfile : file.page id = some page := page_eq_some.mpr ⟨ib, hib, hip⟩
  refine ⟨page, hfile, hloader, hcompared, ?_⟩
  by_cases hid : id ∈ todo
  · left
    rw [Saver.held_of_mem hpage hid, oldPlace, hloader]
    exact page.range_reread
  rw [Saver.held_of_notMem hpage hid]
  rcases hcompared with ⟨-, hsize, hpos⟩ | ⟨hsame, hzero, -⟩
  · left
    rw [page.sizeOnDisk_reread] at hsize hpos
    by_cases hne : page.sizeOnDisk = 0
    · rw [place, IndexPage.range_eq_empty hne,
        IndexPage.range_eq_empty (hsize.trans hne), ite_self]
    obtain ⟨F, -, hallot, -⟩ := h.space
    have hlo := (hallot.held_subset id (held_of_page hfile ▸ IndexPage.filePos_mem_range hne)).1
    have hpos := hpos hne
    rw [IndexPage.reread_of_ne_zero hne] at hpos
    rw [place, if_neg (by omega), IndexPage.range, IndexPage.range, hsize, hpos]
  · right
    have hnot : saverPage.changed ≠ true := fun hch => hid ((htodo id).mpr ⟨b, _, hb, hp, hch⟩)
    refine ⟨?_, if_pos hzero⟩
    simpa [changed, hsame] using hnot

theorem Laid.held_subset (hkeeps : file.KeepsPages x) (id : PageId) :
    file.held id ⊆ s.held (Saver.ids todo) id := by
  cases hfile : file.page id with
  | none =>
    simp only [held, hfile]
    exact empty_subset _
  | some page =>
    rw [held_of_page hfile]
    by_cases hzero : page.sizeOnDisk = 0
    · rw [IndexPage.range_eq_empty hzero]
      exact empty_subset _
    obtain ⟨ib, hib, hip⟩ := page_eq_some.mp hfile
    obtain ⟨ramBlock, hramBlock, hskip, hlt, hnow⟩ :=
      hkeeps id.1 (List.getElem?_eq_some_iff.mp hib).1 ib hib id.2
        (List.getElem?_eq_some_iff.mp hip).1 page hip hzero
    obtain ⟨b, saverPage, hb, hp⟩ := saveBlocks_exists hblocks hramBlock hskip hlt
    obtain ⟨ramBlock', hramBlock', hclassify⟩ := saveBlocks_page hblocks hb hp
    obtain ⟨ib', page', hib', hip', -, -, hne⟩ := classifyPage_some hclassify
    obtain rfl : ib = ib' := some.inj (hib.symm.trans hib')
    obtain rfl : page = page' := some.inj (hip.symm.trans hip')
    have hpage : s.page id = .ok saverPage := Saver.page_eq_ok.mpr ⟨b, hs ▸ hb, hp⟩
    obtain ⟨page'', hfile', -, -, heq | ⟨hsize, -⟩⟩ := h.held_page hblocks htodo hs hpage
    · obtain rfl : page = page'' := some.inj (hfile.symm.trans hfile')
      rw [heq]
    · exact absurd hsize (hne hzero hnow)

theorem Laid.tracks (hstart : s.currentStreamPos = file.index.startPosInFile)
    (hsome : s.gaps.isSome) (hgaps : ∀ F, SavedGaps T file.index.compressed file.gaps F →
      HasGaps T file.index.compressed s.gaps F) (hkeeps : full → file.KeepsPages x) :
    s.Tracks T full file.index.compressed (Saver.ids todo) (Saver.ids todo) := by
  have hsub : ∀ id, s.held (Saver.ids todo) id ⊆ file.held id := by
    intro id
    cases hpage : s.page id with
    | error f =>
      simp only [Saver.held, hpage]
      exact empty_subset _
    | ok saverPage =>
      obtain ⟨page, hfile, -, -, heq | ⟨-, heq⟩⟩ := h.held_page hblocks htodo hs hpage
      · rw [heq, held_of_page hfile]
      · rw [heq]
        exact empty_subset _
  obtain ⟨F, hF, hallot, hfull⟩ := h.space
  exact {
    start := by
      rw [hstart]
      exact ⟨h.start, file.index.startPosInFile_lt⟩
    space := by
      rw [hstart]
      refine ⟨F, hgaps F hF, hallot.lose hsub, fun hf => ?_⟩
      have heq : s.held (Saver.ids todo) = file.held := funext fun id =>
        (hsub id).antisymm (h.held_subset hblocks htodo hs (hkeeps hf) id)
      rw [heq]
      exact hfull hf
    whole := fun hc => by
      obtain ⟨hmod, hwhole⟩ := h.whole hc
      refine ⟨hstart ▸ hmod, fun id saverPage hpage => ?_⟩
      obtain ⟨page, hfile, hloader, hcompared, -⟩ := h.held_page hblocks htodo hs hpage
      have hold := (hwhole id page hfile).reread
      refine ⟨?_, fun q hq => ?_⟩
      · rcases hcompared with ⟨-, hsize, hpos⟩ | ⟨-, hpos, hsize⟩
        · by_cases hzero : page.reread.sizeOnDisk = 0
          · exact .inl (hsize.trans hzero)
          · rwa [IndexPage.Whole, hsize, hpos hzero]
        · exact hsize.imp_right fun hsize => ⟨hsize, .inl hpos⟩
      · obtain rfl : page.reread = q := some.inj (hloader.symm.trans hq)
        exact hold
    tracker := fun _ _ _ _ => hsome
    pending_subset := subset_rfl
    exists_page := fun id hid => by
      obtain ⟨b, saverPage, hb, hp, hchanged⟩ := (htodo id).mp hid
      have hpage : s.page id = .ok saverPage := Saver.page_eq_ok.mpr ⟨b, hs ▸ hb, hp⟩
      obtain ⟨page, -, -, hcompared, -⟩ := h.held_page hblocks htodo hs hpage
      obtain ⟨hsame, hsize⟩ : saverPage.same = false ∧ saverPage.sizeOnDisk ≠ 0 := by
        simpa [changed] using hchanged
      rcases hcompared with ⟨htrue, -⟩ | ⟨-, hpos, -⟩
      · simp [hsame] at htrue
      · exact ⟨saverPage, hpage, hsize, fun _ => hpos⟩
    placed := fun id saverPage hpage hid hsize => by
      obtain ⟨b, hb, hp⟩ := Saver.page_eq_ok.mp hpage
      obtain ⟨page, hfile, -, hcompared, -⟩ := h.held_page hblocks htodo hs hpage
      rcases hcompared with ⟨-, hsize', hpos⟩ | ⟨hsame, -, -⟩
      · have hne : page.sizeOnDisk ≠ 0 := page.sizeOnDisk_reread ▸ hsize' ▸ hsize
        rw [hpos (page.sizeOnDisk_reread.symm ▸ hne), IndexPage.reread_of_ne_zero hne]
        have hlo := (hallot.held_subset id (held_of_page hfile ▸ IndexPage.filePos_mem_range hne)).1
        omega
      · exact absurd ((htodo id).mpr ⟨b, saverPage, hs ▸ hb, hp,
          by simpa [changed, hsame] using hsize⟩) hid }

end

end Saved

theorem tracks_of_full {todo : List PageId} (hs : s.blocks = blocks)
    (hstart : s.currentStreamPos = 8) (hgaps : s.gaps = none)
    (hblocks : saveBlocks none x = .ok blocks)
    (htodo : ∀ id, id ∈ todo ↔
      ∃ b page, blocks[id.1]? = some b ∧ b.pages[id.2]? = some page ∧ page.changed = true) :
    s.Tracks T full compressed (Saver.ids todo) (Saver.ids todo) := by
  have hpages : ∀ {id page}, s.page id = .ok page → page.same = false ∧ page.filePos = 0 ∧
      page.loaderPage = none ∧ (page.sizeOnDisk = 0 ∨ page.sizeOnDisk = kDefaultPageSize) := by
    intro id page hpage
    obtain ⟨b, hb, hp⟩ := Saver.page_eq_ok.mp hpage
    obtain ⟨ramBlock, -, hclassify⟩ := saveBlocks_page hblocks (hs ▸ hb) hp
    exact classifyPage_none hclassify
  have hheld : s.held (Saver.ids todo) = fun _ => ∅ := by
    funext id
    cases hpage : s.page id with
    | error f => simp only [Saver.held, hpage]
    | ok page =>
      obtain ⟨-, hpos, hloader, -⟩ := hpages hpage
      by_cases hid : id ∈ todo
      · rw [Saver.held_of_mem hpage hid, SaverPage.oldPlace, hloader]
      · rw [Saver.held_of_notMem hpage hid]
        exact if_pos hpos
  exact {
    start := by rw [hstart]; norm_num
    space := by
      rw [hheld, hstart, hgaps, Ico_self]
      exact ⟨∅, rfl, .init ∅, fun _ x hx => absurd hx (notMem_empty x)⟩
    whole := fun _ => by
      refine ⟨by rw [hstart]; decide, fun id page hpage => ?_⟩
      obtain ⟨-, hpos, hloader, hsize⟩ := hpages hpage
      exact ⟨hsize.imp_right fun hsize => ⟨hsize, .inl hpos⟩, by simp [hloader]⟩
    tracker := fun id page hpage hsome => by simp [(hpages hpage).2.2.1] at hsome
    pending_subset := subset_rfl
    exists_page := fun id hid => by
      obtain ⟨b, page, hb, hp, hchanged⟩ := (htodo id).mp hid
      have hpage : s.page id = .ok page := Saver.page_eq_ok.mpr ⟨b, hs ▸ hb, hp⟩
      exact ⟨page, hpage, by simpa [SaverPage.changed, (hpages hpage).1] using hchanged,
        fun _ => (hpages hpage).2.1⟩
    placed := fun id page hpage hid hsize => by
      obtain ⟨b, hb, hp⟩ := Saver.page_eq_ok.mp hpage
      exact absurd ((htodo id).mpr ⟨b, page, hs ▸ hb, hp,
        by simpa [SaverPage.changed, (hpages hpage).1] using hsize⟩) hid }

/-! ### Saves -/

/-- The gaps that an incremental save adds fit. -/
def Saved.GapsFit (fits : GenericGapTracker → ℤ → ℤ → Prop) (file : Saved) (x : SaveInput) : Prop :=
  ∀ gaps ∈ (file.gaps.reload file.index.compressed).toOption,
    ∀ blocks ∈ (saveBlocks (some file.index.blocks) x).toOption,
      Meets (Saver.saveBatch file.index.compressed x.ram)
        (Saver.BatchFits fits file.index.compressed x.ram)
        ⟨blocks, some gaps, file.index.startPosInFile⟩ (arrange x.order (batches blocks))

instance (file : Saved) (x : SaveInput) [∀ t a n, Decidable (fits t a n)] :
    Decidable (file.GapsFit fits x) :=
  inferInstanceAs (Decidable (∀ gaps ∈ (file.gaps.reload file.index.compressed).toOption, _))

theorem mem_arrange_batches (order : List ℕ) : id ∈ (arrange order (batches blocks)).flatten ↔
      ∃ b page, blocks[id.1]? = some b ∧ b.pages[id.2]? = some page ∧ page.changed = true :=
  (arrange_perm order (batches blocks)).flatten.mem_iff.trans mem_batches

theorem nodup_arrange_batches (order : List ℕ) : (arrange order (batches blocks)).flatten.Nodup :=
  (arrange_perm order (batches blocks)).flatten.nodup_iff.mpr (nodup_batches blocks)

theorem Saved.Laid.save (rules : SpaceRules T fits) (h : file.Laid T full) (hfull : x.full = false)
    (hkeeps : full → file.KeepsPages x) (hfits : file.GapsFit fits x)
    (hsave : save (some file) x = .ok (some file', ())) : file'.Laid T full := by
  rw [RamSnapshot.save] at hsave
  simp only [hfull, Bool.false_eq_true, if_false, map_some, getD_some] at hsave
  obtain ⟨gaps, hgaps, hsave⟩ := bind_eq_ok.mp hsave
  obtain ⟨blocks, hblocks, hsave⟩ := bind_eq_ok.mp hsave
  obtain ⟨s, hrun, hsave⟩ := bind_eq_ok.mp hsave
  obtain ⟨file1, hfinish, hret⟩ := bind_eq_ok.mp hsave
  obtain rfl : file1 = file' := some.inj (congrArg Prod.fst (ok.inj hret))
  obtain ⟨gaps, hreload, hret'⟩ := bind_eq_ok.mp hgaps
  obtain rfl := ok.inj hret'
  have hfits := hfits gaps (by rw [hreload]; rfl) blocks (by rw [hblocks]; rfl)
  have htracks := h.tracks (s := ⟨blocks, some gaps, file.index.startPosInFile⟩) hblocks
    (fun id => mem_arrange_batches x.order) rfl rfl rfl (fun F hF => hF.reload rules hreload) hkeeps
  exact (htracks.run_saveBatch rules (nodup_arrange_batches x.order) (fun _ => hfits) hrun).finish
    hfinish

theorem laid_of_full (rules : SpaceRules T fits) {before : Option Saved}
    (hfull : x.full = true ∨ before = none) (hsave : save before x = .ok (some file', ())) :
    file'.Laid T full := by
  have hloader : (if x.full then none else before) = none := by
    rcases hfull with hfull | rfl
    · rw [if_pos hfull]
    · exact ite_self none
  rw [RamSnapshot.save] at hsave
  simp only [hloader, map_none, getD_none] at hsave
  obtain ⟨gaps, hgaps, hsave⟩ := bind_eq_ok.mp hsave
  obtain ⟨blocks, hblocks, hsave⟩ := bind_eq_ok.mp hsave
  obtain ⟨s, hrun, hsave⟩ := bind_eq_ok.mp hsave
  obtain ⟨file1, hfinish, hret⟩ := bind_eq_ok.mp hsave
  obtain rfl : file1 = file' := some.inj (congrArg Prod.fst (ok.inj hret))
  obtain rfl : none = gaps := ok.inj hgaps
  have htracks : Saver.Tracks T full x.compress _ _ ⟨blocks, none, 8⟩ :=
    tracks_of_full rfl rfl rfl hblocks fun id => mem_arrange_batches x.order
  exact (htracks.run_saveBatch rules (nodup_arrange_batches x.order) (by simp) hrun).finish hfinish

/-! ### Runs -/

structure Saved.Apart (file : Saved) : Prop where
  inside : ∀ id page, file.page id = some page → page.range ⊆ Set.Ico 8 file.index.startPosInFile
  apart : ∀ id page id' page', id ≠ id' → file.page id = some page → file.page id' = some page' →
    Disjoint page.range page'.range
  gaps : ∀ id page gap, file.page id = some page → gap ∈ file.gaps.gaps →
    Disjoint page.range (Set.Ico gap.1 (gap.1 + gap.2))
  reloaded : ∀ gaps id page gap, file.gaps.reload file.index.compressed = .ok gaps →
    file.page id = some page → gap ∈ gaps.gaps →
    Disjoint page.range (Set.Ico gap.1 (gap.1 + gap.2))

theorem SavedGaps.subset (h : SavedGaps GenericGapTracker.Holds compressed gaps F) {gap : Gap}
    (hgap : gap ∈ gaps.gaps) : Set.Ico gap.1 (gap.1 + gap.2) ⊆ F := by
  cases gaps with
  | generic t => exact h.2.within.subset gap hgap
  | oneSize t =>
    obtain ⟨rfl, -⟩ := h
    simp [gaps, OneSizeGapTracker.pending] at hgap

theorem Saved.Laid.apart {full : Prop} (h : file.Laid GenericGapTracker.Holds full) :
    file.Apart := by
  obtain ⟨F, hF, hallot, -⟩ := h.space
  have hfree : ∀ id page (gap : Gap), file.page id = some page → Ico gap.1 (gap.1 + gap.2) ⊆ F →
      Disjoint page.range (Ico gap.1 (gap.1 + gap.2)) := fun id page gap hpage hsub =>
    held_of_page hpage ▸ (hallot.held_free id).mono_right hsub
  exact {
    inside := fun id page hpage => held_of_page hpage ▸ hallot.held_subset id
    apart := fun id page id' page' hne hpage hpage' =>
      held_of_page hpage ▸ held_of_page hpage' ▸ hallot.apart id id' hne
    gaps := fun id page gap hpage hgap => hfree id page gap hpage (hF.subset hgap)
    reloaded := fun gaps id page gap hreload hpage hgap =>
      hfree id page gap hpage ((hF.reload holds_rules hreload).saved.subset hgap) }

/-- After every save, the pages of the file lie between its first bytes and the index, and they
overlap neither each other nor a gap. -/
theorem run_save_apart (inputs : List SaveInput) (file : Saved)
    (hrun : (run save none inputs).2 = .ok (some file)) : file.Apart := by
  have hlaid : ∀ file' ∈ some file, Saved.Laid GenericGapTracker.Holds False file' := by
    refine run_loop (P := fun before (_ : List SaveInput) =>
      ∀ file ∈ before, Saved.Laid GenericGapTracker.Holds False file) ?_ inputs (by simp) hrun
    rintro before x rest after ⟨⟩ hbefore hsave file hfile
    obtain rfl : after = some file := hfile
    by_cases hfull : x.full = true ∨ before = none
    · exact laid_of_full holds_rules hfull hsave
    obtain ⟨hinc, hsome⟩ := not_or.mp hfull
    obtain ⟨old, rfl⟩ := ne_none_iff_exists'.mp hsome
    refine (hbefore old rfl).save holds_rules (by simpa using hinc) False.elim ?_ hsave
    exact fun gaps _ blocks _ => meets_of_forall _ _ fun batch _ s s' _ =>
      meets_of_forall _ _ fun id _ s page _ t _ gap _ => trivial
  exact (hlaid file rfl).apart

/-! A block of two pages and what saves find in it. -/

def twoPages : RamBlock :=
  ⟨[114, 97, 109], 8192, 4096, 0, [], false, by decide, by decide, by decide, by decide, by decide⟩

/-- A page with a hash and a size; nothing in it is zero. -/
def filled (hash : UInt8) (compressedSize : ℕ) : Content :=
  ⟨false, List.replicate 16 hash, compressedSize, true, by simp⟩

def zeroed : Content := ⟨true, List.replicate 16 9, 12, true, by simp⟩

def saveTwo (first second : Content) : SaveInput where
  blocks := [twoPages]
  ram := fun _ i => if i = 0 then first else second

theorem exists_saved (inputs : List SaveInput) (p : Saved → Bool)
    (h : (run save none inputs).2.toOption.join.any p = true) :
    ∃ file, (run save none inputs).2 = .ok (some file) ∧ p file = true := by
  cases hrun : (run save none inputs).2 with
  | error f => simp [hrun, Except.toOption] at h
  | ok file =>
    rw [hrun] at h
    cases file with
    | none => simp [Except.toOption] at h
    | some file => exact ⟨file, rfl, by simpa [Except.toOption] using h⟩

/-- A page shrinks in its place, then grows and moves to the end, while the other becomes zero and
is filled again. -/
theorem run_save_apart_three : ∃ file, (run save none [saveTwo (filled 1 100) (filled 2 4096),
      saveTwo (filled 3 40) zeroed, saveTwo (filled 4 2000) (filled 2 60)]).2 = .ok (some file) ∧
      file.gaps = .generic { byStart := [(68, 40)], bySize := [(40, [68])], empty := false } ∧
      file.Apart := by
  obtain ⟨file, hrun, hgaps⟩ := exists_saved [saveTwo (filled 1 100) (filled 2 4096),
    saveTwo (filled 3 40) zeroed, saveTwo (filled 4 2000) (filled 2 60)] (fun file => file.gaps =
    .generic { byStart := [(68, 40)], bySize := [(40, [68])], empty := false }) (by decide +kernel)
  exact ⟨file, hrun, by simpa using hgaps, run_save_apart _ file hrun⟩

def Saved.unused (file : Saved) : Set ℤ :=
  Set.Ico 8 file.index.startPosInFile \ ⋃ id, file.held id

/-- No byte of a file is lost: what no page has is in a gap, and the tracker counts it. -/
structure Saved.Accounted (file : Saved) : Prop where
  covered : ∀ x ∈ Set.Ico 8 file.index.startPosInFile,
    (∃ id page, file.page id = some page ∧ x ∈ page.range) ∨
      ∃ gap ∈ file.gaps.gaps, x ∈ Set.Ico gap.1 (gap.1 + gap.2)
  wastedSpace : file.gaps.wastedSpace = file.unused.ncard
  reloaded : ∀ gaps, file.gaps.reload file.index.compressed = .ok gaps →
    gaps.wastedSpace = file.unused.ncard

theorem SavedGaps.wastedSpace (h : SavedGaps GenericGapTracker.Represents compressed gaps F)
    {pos : ℤ}
    (hpos : pos < 2 ^ 63) (hF : F ⊆ Set.Ico 8 pos) : gaps.wastedSpace = F.ncard := by
  cases gaps with
  | generic t =>
    have hcard : F.ncard ≤ (Ico 8 pos).ncard := ncard_le_ncard hF (finite_Ico 8 pos)
    rw [← Finset.coe_Ico, ncard_coe_finset, Int.card_Ico] at hcard
    rw [wastedSpace, h.2.wastedSpace]
    exact wrapInt64_of_bounds (by omega) (by omega)
  | oneSize t =>
    obtain ⟨rfl, rfl⟩ := h
    rw [ncard_empty]
    rfl

theorem Saved.Laid.accounted (h : file.Laid GenericGapTracker.Represents True) :
    file.Accounted := by
  obtain ⟨F, hF, hallot, hfull⟩ := h.space
  have hfree : F = file.unused := Allotment.Full.free_eq hallot (hfull trivial)
  have hlt := file.index.startPosInFile_lt
  exact {
    covered := fun x hx => by
      rcases hfull trivial x hx with hfree | ⟨id, hid⟩
      · right
        cases hgaps : file.gaps with
        | generic t =>
          rw [hgaps] at hF
          exact hF.2.tracks.covers x hfree
        | oneSize t =>
          rw [hgaps] at hF
          rw [hF.2] at hfree
          exact absurd hfree (notMem_empty x)
      · left
        cases hpage : file.page id with
        | none =>
          simp only [held, hpage] at hid
          exact absurd hid (notMem_empty x)
        | some page => exact ⟨id, page, hpage, held_of_page hpage ▸ hid⟩
    wastedSpace := hfree ▸ hF.wastedSpace hlt hallot.free_subset
    reloaded := fun gaps hreload =>
      hfree ▸ (hF.reload represents_rules hreload).saved.wastedSpace hlt hallot.free_subset }

/-- A save that loses nothing: no page becomes zero, and the gaps it adds are smaller than `2 ^ 31`
after they were joined with their neighbours. -/
def LosesNothing (before : Option Saved) (x : SaveInput) : Prop :=
  ∀ file ∈ before, x.full = false →
    file.KeepsPages x ∧ file.GapsFit (fun t start size => t.joinedSize start size < 2 ^ 31) x

instance (before : Option Saved) (x : SaveInput) : Decidable (LosesNothing before x) :=
  inferInstanceAs (Decidable (∀ file ∈ before, _))

/-- As long as saves lose nothing, every byte of the file belongs to a page or to a gap, and the
wasted space is what no page has. -/
theorem run_save_accounted (inputs : List SaveInput) (hmeets : Meets save LosesNothing none inputs)
    (file : Saved) (hrun : (run save none inputs).2 = .ok (some file)) : file.Accounted := by
  have hlaid := run_loop (P := fun before rest => Meets save LosesNothing before rest ∧
    ∀ file ∈ before, Saved.Laid GenericGapTracker.Represents True file) ?_ inputs
    ⟨hmeets, by simp⟩ hrun
  · exact (hlaid.2 file rfl).accounted
  · rintro before x rest after ⟨⟩ ⟨⟨hcond, hrest⟩, hbefore⟩ hsave
    refine ⟨hrest after () hsave, fun file hfile => ?_⟩
    obtain rfl : after = some file := hfile
    by_cases hfull : x.full = true ∨ before = none
    · exact laid_of_full represents_rules hfull hsave
    obtain ⟨hinc, hsome⟩ := not_or.mp hfull
    obtain ⟨old, rfl⟩ := ne_none_iff_exists'.mp hsome
    have hinc : x.full = false := by simpa using hinc
    obtain ⟨hkeeps, hfits⟩ := hcond old rfl hinc
    exact (hbefore old rfl).save represents_rules hinc (fun _ => hkeeps) hfits hsave

/-- A page shrinks, and then grows into the gap that it left. -/
theorem run_save_accounted_three :
    ∃ file, (run save none
      [saveTwo (filled 1 100) (filled 2 50), saveTwo (filled 3 40) (filled 2 50),
      saveTwo (filled 4 90) (filled 2 50)]).2 = .ok (some file) ∧
      file.gaps.wastedSpace = 10 ∧ file.Accounted := by
  obtain ⟨file, hrun, hwasted⟩ := exists_saved [saveTwo (filled 1 100) (filled 2 50),
    saveTwo (filled 3 40) (filled 2 50), saveTwo (filled 4 90) (filled 2 50)]
    (fun file => file.gaps.wastedSpace = 10) (by decide +kernel)
  exact ⟨file, hrun, by simpa using hwasted,
    run_save_accounted _ (by decide +kernel) file hrun⟩

/-- A page becomes zero and its place is neither its own any more nor a gap. -/
theorem zeroed_page_lost :
    ∃ file, (run save none [saveTwo (filled 1 100) zeroed, saveTwo zeroed zeroed]).2 =
      .ok (some file) ∧ ¬ file.Accounted := by
  obtain ⟨file, hrun, hfile⟩ := exists_saved
    [saveTwo (filled 1 100) zeroed, saveTwo zeroed zeroed] (fun file =>
    file.index.startPosInFile = 108 ∧ file.gaps = .generic {} ∧
      ∀ b ∈ file.index.blocks, ∀ page ∈ b.pages, page.sizeOnDisk = 0) (by decide +kernel)
  obtain ⟨hstart, hgaps, hzero⟩ := of_decide_eq_true hfile
  refine ⟨file, hrun, fun haccounted => ?_⟩
  rcases haccounted.covered 8 (by rw [hstart]; norm_num) with ⟨id, page, hpage, hmem⟩ |
    ⟨gap, hgap, -⟩
  · obtain ⟨b, hb, hp⟩ := Saved.page_eq_some.mp hpage
    rw [IndexPage.range_eq_empty (hzero b (mem_of_getElem? hb) page (mem_of_getElem? hp))]
      at hmem
    exact hmem
  · rw [hgaps] at hgap
    exact absurd hgap not_mem_nil

end AndroidEmu.RamSnapshot
