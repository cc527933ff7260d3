import AndroidEmu.AddressSpace.Refinement
import AndroidEmu.Math.Segments

/-!
# The blocks tile the address range

As long as no request is split across the end of a block no two neighbours are both available. Every
successful allocation *carves* one block out of an available one; every deallocation merges one
back.
-/

namespace AndroidEmu.AddressSpace

open CS Math Checked List AddressBlock Segments

/-- Whether a byte belongs to an available block. -/
abbrev AvailableAt (bs : List AddressBlock) (p : ℕ) : Prop :=
  Segments.Free AddressBlock.offset AddressBlock.size (·.available = true) bs p

/-- The blocks tile `[lo, hi)`. -/
abbrev TilesFrom (lo : ℕ) (bs : List AddressBlock) (hi : ℕ) : Prop :=
  Segments.Tiles AddressBlock.offset AddressBlock.size lo bs hi

/-- No two neighbouring blocks are available. -/
abbrev Merged (bs : List AddressBlock) : Prop :=
  Segments.Coalesced (fun b : AddressBlock => b.available = true) bs

/-- The blocks tile a range that fits in the size field, and are merged. -/
structure Tiled (total : ℕ) (bs : List AddressBlock) : Prop where
  tiles : TilesFrom 0 bs total
  merged : Merged bs
  total_lt : total < 2 ^ 63

def used (bs : List AddressBlock) : List (ℕ × ℕ) :=
  (bs.filter fun b => !b.available).map fun b => (b.offset, b.size)

variable {total size offset : ℕ} {bs pre post new : List AddressBlock} {b : AddressBlock}

@[simp] theorem used_append (xs ys : List AddressBlock) : used (xs ++ ys) = used xs ++ used ys := by
  simp [used]

@[simp] theorem used_nil : used [] = [] := rfl

theorem used_cons_of_available (h : b.available = true) : used (b :: bs) = used bs := by
  simp [used, h]

theorem used_cons_of_unavailable (h : b.available = false) :
    used (b :: bs) = (b.offset, b.size) :: used bs := by
  simp [used, h]

theorem mem_used {r : ℕ × ℕ} :
    r ∈ used bs ↔ ∃ b ∈ bs, b.available = false ∧ (b.offset, b.size) = r := by
  simp [used, and_assoc]

theorem used_of_all_available (h : ∀ x ∈ bs, x.available = true) : used bs = [] := by
  simpa [used] using h

/-! ### Blocks inside the range -/

theorem ofFields_offset_of_le {available : Bool} (h : offset + size ≤ total)
    (hlt : total < 2 ^ 63) : (AddressBlock.ofFields offset size available).offset = offset :=
  wrapNat_of_lt (by omega)

theorem ofFields_size_of_le {available : Bool} (h : offset + size ≤ total)
    (hlt : total < 2 ^ 63) : (AddressBlock.ofFields offset size available).size = size :=
  wrapNat_of_lt (by omega)

theorem Tiled.bounds (h : Tiled total bs) (hb : b ∈ bs) : 0 < b.size ∧ b.offset + b.size ≤ total :=
  (h.tiles.bounds hb).2

theorem Tiled.availableAt_iff (h : Tiled total bs) {p : ℕ} (hp : p < total) :
    AvailableAt bs p ↔ ∀ r ∈ used bs, ¬ (r.1 ≤ p ∧ p < r.1 + r.2) := by
  obtain ⟨b, hb, hcover⟩ := h.tiles.exists_covers (Nat.zero_le p) hp
  refine (h.tiles.free_iff hb hcover).trans ⟨?_, ?_⟩
  · rintro hav r hr hin
    obtain ⟨c, hc, hcav, rfl⟩ := mem_used.mp hr
    obtain rfl := h.tiles.eq_of_covers hb hc hcover hin
    rw [hav] at hcav
    exact Bool.noConfusion hcav
  · intro hall
    by_contra hav
    exact hall _ (mem_used.mpr ⟨b, hb, by simpa using hav, rfl⟩) hcover

theorem Tiled.used_disjoint (h : Tiled total bs) :
    (used bs).Pairwise fun r q => r.1 + r.2 ≤ q.1 := by
  unfold used
  rw [pairwise_map]
  exact h.tiles.pairwise.filter _

theorem Tiled.eq_seed (h : Tiled total bs) (htotal : 0 < total) (hused : used bs = []) :
    bs = [.ofFields 0 total true] := by
  have hall : ∀ x ∈ bs, x.available = true := by
    intro x hx
    by_contra hav
    have := mem_used.mpr ⟨x, hx, by simpa using hav, rfl⟩
    rw [hused] at this
    exact not_mem_nil this
  have hlen := Coalesced.length_le_one h.merged hall
  match bs, h, hall, hlen with
  | [], h, _, _ =>
    have := tiles_nil.mp h.tiles
    omega
  | [x], h, hall, _ =>
    obtain ⟨hoff, _, hend⟩ := tiles_cons.mp h.tiles
    have hsize : 0 + x.size = total := tiles_nil.mp hend
    have hav := hall x (by simp)
    have hx : x = .ofFields 0 total true := by
      cases x
      simp only [ofFields, AddressBlock.mk.injEq] at *
      refine ⟨?_, ?_, hav⟩
      · rw [hoff, wrapNat_of_lt (by omega)]
      · rw [wrapNat_of_lt (by omega)]
        omega
    rw [hx]

theorem mem_iff_mem_used (hb : ¬ b.available = true) : b ∈ bs ↔ (b.offset, b.size) ∈ used bs := by
  rw [mem_used]
  constructor
  · exact fun hmem => ⟨b, hmem, by simpa using hb, rfl⟩
  · rintro ⟨⟨_, _, _, _, _⟩, hmem, rfl, hrange⟩
    obtain ⟨_, _, _, _, _⟩ := b
    simp_all

theorem Tiled.ext {bs' : List AddressBlock} (h : Tiled total bs) (h' : Tiled total bs')
    (hused : (used bs).Perm (used bs')) : bs = bs' := by
  refine h.tiles.ext h'.tiles h.merged h'.merged (fun b hb => ?_) ?_
  · rw [mem_iff_mem_used hb, mem_iff_mem_used hb, hused.mem_iff]
  · rintro ⟨_, _, _, _, _⟩ ⟨_, _, _, _, _⟩ rfl rfl rfl rfl
    rfl

/-! ### Carving a block -/

/-- The blocks `new` tile the range of `b`; one of them is the unavailable block of
`size` bytes at `offset`, and what is left on either side is available. -/
structure Carves (b : AddressBlock) (size offset : ℕ) (new : List AddressBlock) : Prop where
  tiles : TilesFrom b.offset new (b.offset + b.size)
  merged : Merged new
  taken : ∃ left x right, new = left ++ x :: right ∧ x.offset = offset ∧ x.size = size ∧
    x.available = false ∧ ∀ y ∈ left ++ right, y.available = true

theorem carves_whole (hpos : 0 < b.size) : Carves b b.size b.offset [b.withAvailable false] where
  tiles := by simp [hpos]
  merged := .singleton _
  taken := ⟨[], _, [], rfl, rfl, rfl, rfl, by simp⟩

theorem carves_cutTail (hav : b.available = true) (hlt : total < 2 ^ 63)
    (hend : b.offset + b.size ≤ total) (hpos : 0 < size) (hsize : size < b.size) :
    Carves b size (b.offset + (b.size - size)) (cutTail b size) := by
  have hoff : (ofFields (b.offset + (b.size - size)) size false).offset =
      b.offset + (b.size - size) := ofFields_offset_of_le (by omega) hlt
  have hsz : (ofFields (b.offset + (b.size - size)) size false).size = size :=
    ofFields_size_of_le (by omega) hlt
  have hrest : (b.withSize (b.size - size)).size = b.size - size := wrapNat_of_lt (by omega)
  refine ⟨?_, ?_, [b.withSize (b.size - size)], _, [], rfl, hoff, hsz, rfl, by simpa using hav⟩
  · simp only [cutTail, tiles_cons, tiles_nil, hoff, hsz, hrest, withSize_offset, true_and]
    omega
  · simp [cutTail, Coalesced]

theorem carves_cutAt (hav : b.available = true) (hlt : total < 2 ^ 63)
    (hend : b.offset + b.size ≤ total) (hpos : 0 < size) (hsize : size < b.size)
    (hlo : b.offset ≤ offset) (hhi : offset + size ≤ b.offset + b.size) :
    ∃ new, cutAt b size offset = .ok new ∧ Carves b size offset new ∧
      (new.length = 2 ∨ new.length = 3) := by
  have hoff : (ofFields offset size false).offset = offset :=
    ofFields_offset_of_le (by omega) hlt
  have hsz : (ofFields offset size false).size = size :=
    ofFields_size_of_le (by omega) hlt
  have hfront : (b.withSize (offset - b.offset)).size = offset - b.offset :=
    wrapNat_of_lt (by omega)
  unfold cutAt
  split_ifs with hhead hexact
  · subst hhead
    have hroff : (ofFields (b.offset + size) (b.size - size) true).offset =
        b.offset + size := ofFields_offset_of_le (by omega) hlt
    have hrsz : (ofFields (b.offset + size) (b.size - size) true).size =
        b.size - size := ofFields_size_of_le (by omega) hlt
    have htaken : (b.withSize size).size = size := wrapNat_of_lt (by omega)
    rw [check_of hpos]
    refine ⟨_, rfl, ⟨?_, ?_, [], _, [_], rfl, rfl, htaken, rfl, by simp⟩, by simp⟩
    · simp only [tiles_cons, tiles_nil, hroff, hrsz, htaken, withAvailable_offset,
        withAvailable_size, withSize_offset, true_and]
      omega
    · simp [Coalesced]
  · refine ⟨_, rfl, ⟨?_, ?_, [_], _, [], rfl, hoff, hsz, rfl, by simpa using hav⟩, by simp⟩
    · simp only [tiles_cons, tiles_nil, hoff, hsz, hfront, withSize_offset, true_and]
      omega
    · simp [Coalesced]
  · have hsub : subNat 64 (b.size - size) (offset - b.offset) =
        b.size - size - (offset - b.offset) := subNat_of_le (by omega) (by omega)
    rw [hsub]
    have hroff : (ofFields (offset + size)
        (b.size - size - (offset - b.offset)) true).offset = offset + size :=
      ofFields_offset_of_le (by omega) hlt
    have hrsz : (ofFields (offset + size)
        (b.size - size - (offset - b.offset)) true).size = b.size - size - (offset - b.offset) :=
      ofFields_size_of_le (by omega) hlt
    refine ⟨_, rfl, ⟨?_, ?_, [_], _, [_], rfl, hoff, hsz, rfl, by simpa using hav⟩, by simp⟩
    · simp only [tiles_cons, tiles_nil, hoff, hsz, hfront, hroff, hrsz, withSize_offset, true_and]
      omega
    · simp [Coalesced]

theorem Tiled.carve (h : Tiled total (pre ++ b :: post)) (hav : b.available = true)
    (hnew : Carves b size offset new) : Tiled total (pre ++ new ++ post) where
  tiles := by
    have h' := h.tiles
    rw [append_cons] at h'
    refine h'.replace fun a c _ hold => ?_
    obtain ⟨rfl, _, rfl⟩ := hold
    exact hnew.tiles
  merged := h.merged.replace hav hnew.merged
  total_lt := h.total_lt

theorem Carves.used_eq (hnew : Carves b size offset new) : used new = [(offset, size)] := by
  obtain ⟨left, x, right, rfl, rfl, rfl, hx, hall⟩ := hnew.taken
  rw [used_append, used_cons_of_unavailable hx,
    used_of_all_available fun y hy => hall y (mem_append_left right hy),
    used_of_all_available fun y hy => hall y (mem_append_right left hy)]
  rfl

theorem Carves.bounds (hnew : Carves b size offset new) :
    b.offset ≤ offset ∧ 0 < size ∧ offset + size ≤ b.offset + b.size := by
  obtain ⟨left, x, right, rfl, rfl, rfl, _, _⟩ := hnew.taken
  exact hnew.tiles.bounds (by simp)

/-! ### Releasing a block -/

theorem Tiled.merge {left right : List AddressBlock} {m : AddressBlock} (x : AddressBlock)
    (old : List AddressBlock) (h : Tiled total (left ++ (x :: old) ++ right))
    (hoff : m.offset = x.offset)
    (hsize : m.size = wrapNat 63 (((x :: old).map AddressBlock.size).sum))
    (hleft : NotEndAvailable left) (hright : NotStartAvailable right) :
    Tiled total (left ++ m :: right) where
  tiles := by
    rw [append_cons]
    refine h.tiles.replace fun a c hc hold => ?_
    have hlt := h.total_lt
    have hsum := hold.add_sum_len
    have hpos := (hold.bounds (mem_cons_self)).2.1
    rw [wrapNat_of_lt (by omega)] at hsize
    rw [map_cons, sum_cons] at hsum hsize
    refine ⟨hoff.trans hold.start_head, by omega, ?_⟩
    rw [tiles_nil]
    omega
  merged := by
    obtain ⟨hinit, hr, _⟩ := isChain_append.mp h.merged
    obtain ⟨hl, _, _⟩ := isChain_append.mp hinit
    exact Coalesced.insert hl hr (fun y hy => by simp [hleft y hy])
      (fun y hy => by simp [hright y hy])
  total_lt := h.total_lt

theorem Tiled.around (pre : List AddressBlock) (h : Tiled total (pre ++ b :: post))
    (hb : b.available = true) :
    NotEndAvailable pre ∧ NotStartAvailable post := by
  obtain ⟨_, _, hleft, hright⟩ := h.merged.around hb
  exact ⟨fun y hy => by simpa using hleft y hy, fun y hy => by simpa using hright y hy⟩

open Tiled

/-- Releasing a block keeps the blocks tiled and removes its range from the used
ones. -/
theorem Tiled.release (h : Tiled total (pre ++ b :: post)) :
    Tiled total (released pre b post) ∧ used (released pre b post) = used pre ++ used post := by
  rcases end_available_cases pre with hp | ⟨pre, p, rfl, hp⟩
  · rcases start_available_cases post with hn | ⟨n, post, rfl, hn⟩
    · rw [released_neither hp hn]
      refine ⟨merge b [] (by simpa using h) rfl ?_ hp hn, ?_⟩
      · simpa using (wrapNat_of_lt b.size_lt).symm
      · rw [used_append, used_cons_of_available rfl]
    · rw [released_after hp hn]
      have hnext : NotStartAvailable post :=
        (around (pre ++ [b]) (by simpa using h) hn).2
      refine ⟨merge b [n] (by simpa using h) rfl (by simp) hp hnext, ?_⟩
      rw [used_append, used_cons_of_available rfl, used_cons_of_available hn]
  · have hprev : NotEndAvailable pre := (around pre (by simpa using h) hp).1
    rcases start_available_cases post with hn | ⟨n, post, rfl, hn⟩
    · rw [released_before hp hn]
      refine ⟨merge p [b] (by simpa using h) rfl (by simp) hprev hn, ?_⟩
      rw [used_append, used_append, used_cons_of_available hp,
        used_cons_of_available (show (p.withSize _).available = true from hp), used_nil, append_nil]
    rw [released_both hp hn]
    have hnext : NotStartAvailable post :=
      (around (pre ++ [p, b]) (by simpa using h) hn).2
    refine ⟨merge p [b, n] (by simpa using h) rfl (by simp) hprev hnext, ?_⟩
    rw [used_append, used_append, used_cons_of_available hp,
      used_cons_of_available (show (p.withSize _).available = true from hp),
      used_cons_of_available hn, used_nil, append_nil]

/-! ### Requests at an offset -/

/-- The range lies inside one available block. -/
def Inside (bs : List AddressBlock) (size offset : ℕ) : Prop :=
  ∃ b ∈ bs, b.available = true ∧ b.offset ≤ offset ∧ offset + size ≤ b.offset + b.size

/-- The range starts in an available block that is long enough for it, but runs past
the end of that block. -/
def Straddles (bs : List AddressBlock) (size offset : ℕ) : Prop :=
  ∃ b ∈ bs, b.available = true ∧ size ≤ b.size ∧ b.offset ≤ offset ∧
    offset < b.offset + b.size ∧ b.offset + b.size < offset + size

instance : Decidable (Inside bs size offset) := by unfold Inside; infer_instance

instance : Decidable (Straddles bs size offset) := by unfold Straddles; infer_instance

theorem Tiled.not_inside_of_straddles (h : Tiled total bs) (hs : Straddles bs size offset)
    (hpos : 0 < size) : ¬ Inside bs size offset := by
  rintro ⟨c, hc, -, hlo, hhi⟩
  obtain ⟨b, hb, -, -, hblo, hbhi, hover⟩ := hs
  obtain rfl := h.tiles.eq_of_covers (p := offset) hb hc ⟨hblo, hbhi⟩ ⟨hlo, by omega⟩
  omega

theorem Tiled.not_inside_of_fitAtOffset (h : Tiled total bs) (hpos : 0 < size)
    (hfit : fitAtOffset size offset bs = none) : ¬ Inside bs size offset := by
  rintro ⟨b, hb, hav, hlo, hhi⟩
  have hbounds := h.bounds hb
  have hlt := h.total_lt
  exact fitAtOffset_eq_none (fun c hc => (h.bounds hc).1) hfit b hb
    (matchesOffset_iff.mpr ⟨by omega, hav, hlo, by omega, by omega⟩)

/-! ### Good tables -/

/-- A tiled table of a range of `total` bytes whose array has as many entries as the
`capacity` field claims. -/
structure BlockTable.Good (total : ℕ) (t : BlockTable) : Prop where
  tiled : Tiled total t.blocks
  totalBytes : t.totalBytes = total
  room : (t.room : ℤ) = t.capacity
  nonempty : 1 ≤ t.blocks.length
  length_le : (t.blocks.length : ℤ) ≤ t.capacity
  capacity_lt : t.capacity < 2 ^ 31

variable {heap : Heap} {t t' : BlockTable}

theorem BlockTable.Good.reserve (h : t.Good total) (heap : Heap) (full : Prop) [Decidable full]
    (base : ℤ) (k : ℕ)
    (hbase : full → 1 ≤ base ∧ base < 2 ^ 31 ∧ (t.blocks.length : ℤ) + k ≤ base + base)
    (hnot : ¬ full → (t.blocks.length : ℤ) + k ≤ t.capacity) :
    t.reserve heap full base k = .error .outOfMemory ∨
      ∃ t', t.reserve heap full base k = .ok t' ∧ t'.blocks = t.blocks ∧
        t'.totalBytes = t.totalBytes ∧ (t'.room : ℤ) = t'.capacity ∧ t'.capacity < 2 ^ 31 ∧
        (t.blocks.length : ℤ) + k ≤ t'.capacity ∧
        (t'.capacity = t.capacity ∨ t'.capacity = base + base) := by
  unfold BlockTable.reserve
  by_cases hfull : full
  · obtain ⟨hpos, hlt, hk⟩ := hbase hfull
    rw [if_pos hfull]
    unfold BlockTable.grow AddressSpaceAllocator.growCapacity
    simp only [check_of hpos, ok_bind, pure_eq_ok]
    by_cases hgrant : heap.grants (arrayBytes (wrapInt (base + base))) = true
    · have hdouble := wrapInt_double hpos hlt (nonneg_of_grants hgrant (neg_le_wrapInt _))
      have hlt' := wrapInt_lt (base + base)
      right
      simp only [hgrant, if_true, ok_bind]
      rw [if_pos (by omega)]
      exact ⟨_, rfl, rfl, rfl, by simp only; omega, hlt', by simp only; omega, .inr hdouble⟩
    · left
      rw [if_neg hgrant]
      rfl
  · right
    have hk := hnot hfull
    have hroom := h.room
    rw [if_neg hfull, pure_eq_ok, ok_bind, if_pos (by omega)]
    exact ⟨t, rfl, rfl, rfl, h.room, h.capacity_lt, hk, .inl rfl⟩

/-- A good table in which the `size` bytes at `offset` were taken from an available
block of `t`. -/
structure BlockTable.Takes (total : ℕ) (t : BlockTable) (size offset : ℕ) (t' : BlockTable) :
    Prop where
  good : t'.Good total
  carves : ∃ pre b post new, t.blocks = pre ++ b :: post ∧ b.available = true ∧
    Carves b size offset new ∧ t'.blocks = pre ++ new ++ post
  capacity : t'.capacity = t.capacity ∨ ∃ c, t'.capacity = c + c

namespace BlockTable

section

variable (h : t.Good total)

include h

/-- Replacing an available block by the blocks carved out of it, in a table with
reserved entries. -/
theorem Good.takes (hb : t.blocks = pre ++ b :: post) (hav : b.available = true)
    (hnew : Carves b size offset new) (htotal : t'.totalBytes = t.totalBytes)
    (hroom : (t'.room : ℤ) = t'.capacity) (hlt : t'.capacity < 2 ^ 31)
    (hle : ((pre.length + new.length + post.length : ℕ) : ℤ) ≤ t'.capacity)
    (hcap : t'.capacity = t.capacity ∨ ∃ c, t'.capacity = c + c) :
    t.Takes total size offset { t' with blocks := pre ++ new ++ post } := by
  have htiled := h.tiled
  rw [hb] at htiled
  obtain ⟨left, x, right, hsplit, -⟩ := hnew.taken
  refine ⟨⟨htiled.carve hav hnew, htotal.trans h.totalBytes, hroom, ?_, ?_, hlt⟩,
    ⟨pre, b, post, new, hb, hav, hnew, rfl⟩, hcap⟩
  · simp only [hsplit, length_append, length_cons]
    omega
  · simpa only [length_append] using hle

theorem Good.takes_whole (hb : t.blocks = pre ++ b :: post)
    (hav : b.available = true) : t.Takes total b.size b.offset
      { t with blocks := splice t.blocks pre.length [b.withAvailable false] } := by
  have hbounds := h.tiled.bounds (b := b) (by simp [hb])
  have hle := h.length_le
  rw [hb, splice_append_cons]
  refine h.takes hb hav (carves_whole hbounds.1) rfl h.room h.capacity_lt ?_ (.inl rfl)
  rw [hb] at hle
  simp only [length_append, length_cons, length_nil] at hle ⊢
  omega

theorem Good.reserve_pieces (heap : Heap) (hcap : t.capacity + 1 < 2 ^ 31) {extra : ℕ}
    (hextra : extra ≤ 1) : t.reserve heap (t.capacity ≤ ((t.blocks.length + extra : ℕ) : ℤ))
        (wrapInt (t.capacity + extra)) (1 + extra) = .error .outOfMemory ∨
      ∃ t', t.reserve heap (t.capacity ≤ ((t.blocks.length + extra : ℕ) : ℤ))
          (wrapInt (t.capacity + extra)) (1 + extra) = .ok t' ∧ t'.blocks = t.blocks ∧
        t'.totalBytes = t.totalBytes ∧ (t'.room : ℤ) = t'.capacity ∧ t'.capacity < 2 ^ 31 ∧
        (t.blocks.length : ℤ) + (1 + extra : ℕ) ≤ t'.capacity ∧
        (t'.capacity = t.capacity ∨ ∃ c, t'.capacity = c + c) := by
  have hlen := h.length_le
  have hone := h.nonempty
  rw [wrapInt_of_bounds (by omega) (by omega)]
  rcases h.reserve heap (t.capacity ≤ ((t.blocks.length + extra : ℕ) : ℤ))
      (t.capacity + extra) (1 + extra) (fun _ => by omega) (fun _ => by omega) with
    herr | ⟨t', hok, hblocks, htotal, hroom, hlt, hk, hcapacity⟩
  · exact .inl herr
  · exact .inr ⟨t', hok, hblocks, htotal, hroom, hlt, hk, hcapacity.imp_right fun hc => ⟨_, hc⟩⟩

theorem allocate_cases (heap : Heap) (hpos : 0 < size) :
    t.allocate heap size = .error .outOfMemory ∨ (t.allocate heap size = .ok (t, badOffset) ∧
        ∀ b ∈ t.blocks, b.available = true → b.size < size) ∨
      ∃ t' offset, t.allocate heap size = .ok (t', offset) ∧ t.Takes total size offset t' := by
  have hall : ∀ b ∈ t.blocks, 0 < b.size := fun b hb => (h.tiled.bounds hb).1
  unfold allocate
  rw [check_of hall]
  cases hfit : bestFit size t.blocks with
  | none => exact .inr (.inl ⟨rfl, bestFit_eq_none hfit⟩)
  | some i =>
    obtain ⟨pre, b, post, hb, rfl, hav, hle⟩ := bestFit_eq_some hfit
    have hbounds := h.tiled.bounds (b := b) (by simp [hb])
    have hlt := h.tiled.total_lt
    have hread : readAt t.blocks pre.length = .ok b := by rw [hb, readAt_append_cons]
    simp only [hread, ok_bind]
    by_cases hcut : size < b.size
    · rw [if_pos hcut]
      have hlen := h.length_le
      have hone := h.nonempty
      have hcap := h.capacity_lt
      rcases h.reserve heap ((t.blocks.length : ℤ) = t.capacity) t.capacity 1 (fun _ => by omega)
        (fun _ => by omega) with
        herr | ⟨t', hok, hblocks, htotal, hroom, hlt', hk, hcapacity⟩
      · exact .inl (by rw [herr]; rfl)
      refine .inr (.inr ⟨_, _, by rw [hok]; rfl, ?_⟩)
      rw [wrapNat_of_lt (by omega), hblocks, hb, splice_append_cons]
      refine h.takes hb hav (carves_cutTail hav hlt hbounds.2 hpos hcut) htotal hroom hlt' ?_
        (hcapacity.imp_right fun hc => ⟨_, hc⟩)
      rw [hb] at hk
      simp only [cutTail, length_append, length_cons, length_nil] at hk ⊢
      omega
    · obtain rfl : b.size = size := by omega
      rw [if_neg hcut]
      exact .inr (.inr ⟨_, _, rfl, h.takes_whole hb hav⟩)

/-- What `allocateFixed` can do to a good table, for a range that does not straddle
the end of a block. -/
theorem allocateFixed_cases (heap : Heap) (hcap : t.capacity + 1 < 2 ^ 31)
    (hpos : 0 < size) (hns : ¬ Straddles t.blocks size offset) :
    t.allocateFixed heap size offset = .error .outOfMemory ∨
      (t.allocateFixed heap size offset = .ok (t, -1) ∧ ¬ Inside t.blocks size offset) ∨
      ∃ t', t.allocateFixed heap size offset = .ok (t', 0) ∧ t.Takes total size offset t' := by
  unfold allocateFixed
  cases hfit : fitAtOffset size offset t.blocks with
  | none => exact .inr (.inl ⟨rfl, h.tiled.not_inside_of_fitAtOffset hpos hfit⟩)
  | some i =>
    obtain ⟨pre, b, post, hb, rfl, hm⟩ := fitAtOffset_eq_some hfit
    obtain ⟨hle, hav, hlo, hhi, -⟩ := matchesOffset_iff.mp hm
    have hmem : b ∈ t.blocks := by simp [hb]
    have hbounds := h.tiled.bounds hmem
    have hlt := h.tiled.total_lt
    have hread : readAt t.blocks pre.length = .ok b := by rw [hb, readAt_append_cons]
    have hinside : offset + size ≤ b.offset + b.size := by
      by_contra hover
      exact hns ⟨b, hmem, hav, hle, hlo, hhi, by omega⟩
    simp only [hread, ok_bind]
    by_cases hcut : size < b.size
    · obtain ⟨new, hnew, hcarves, hlen⟩ :=
        carves_cutAt hav hlt hbounds.2 hpos hcut hlo hinside
      rw [if_pos hcut, hnew, ok_bind]
      rcases h.reserve_pieces heap hcap (show new.length - 2 ≤ 1 by omega) with
        herr | ⟨t', hok, hblocks, htotal, hroom, hlt', hk, hcapacity⟩
      · exact .inl (by rw [herr]; rfl)
      refine .inr (.inr ⟨_, by rw [hok]; rfl, ?_⟩)
      rw [hblocks, hb, splice_append_cons]
      refine h.takes hb hav hcarves htotal hroom hlt' ?_ hcapacity
      rw [hb] at hk
      simp only [length_append, length_cons] at hk
      omega
    · obtain rfl : b.size = size := by omega
      obtain rfl : b.offset = offset := by omega
      rw [if_neg hcut]
      exact .inr (.inr ⟨_, rfl, h.takes_whole hb hav⟩)

omit h in
theorem reserve_ample_ne {full : Prop} [Decidable full] {base : ℤ} {k : ℕ} (hpos : 1 ≤ base)
    (hlt : base < 2 ^ 30) : t.reserve Heap.ample full base k ≠ .error .outOfMemory := by
  have hgrant : Heap.ample.grants (arrayBytes (base + base)) = true := by
    simp only [Heap.ample, arrayBytes, decide_eq_true_eq]
    omega
  unfold reserve grow AddressSpaceAllocator.growCapacity
  simp only [check_of hpos, ok_bind, pure_eq_ok,
    wrapInt_of_bounds (show -2 ^ 31 ≤ base + base by omega) (by omega), hgrant, if_true]
  split_ifs <;> simp only [ok_bind] <;> split_ifs <;> simp

theorem allocateFixed_of_straddles (hcap : t.capacity + 1 < 2 ^ 30)
    (hs : Straddles t.blocks size offset) :
    ∃ t', t.allocateFixed Heap.ample size offset = .ok (t', 0) := by
  obtain ⟨c, hc, hcav, hcle, hclo, hchi, hover⟩ := hs
  have hcbounds := h.tiled.bounds hc
  have hlt := h.tiled.total_lt
  have hlen := h.length_le
  unfold allocateFixed
  cases hfit : fitAtOffset size offset t.blocks with
  | none =>
    exact absurd (matchesOffset_iff.mpr ⟨hcle, hcav, hclo, hchi, by omega⟩)
      (fitAtOffset_eq_none (fun b hb => (h.tiled.bounds hb).1) hfit c hc)
  | some i =>
    obtain ⟨pre, b, post, hb, rfl, hm⟩ := fitAtOffset_eq_some hfit
    obtain ⟨-, -, hlo, hhi, -⟩ := matchesOffset_iff.mp hm
    obtain rfl := h.tiled.tiles.eq_of_covers hc (by simp [hb]) ⟨hclo, hchi⟩ ⟨hlo, hhi⟩
    have hread : readAt t.blocks pre.length = .ok c := by rw [hb, readAt_append_cons]
    simp only [hread, ok_bind]
    by_cases hcut : size < c.size
    · rw [if_pos hcut, cutAt, if_neg (by omega), if_neg (by omega), ok_bind]
      rcases h.reserve_pieces Heap.ample (by omega) (le_refl 1) with
        herr | ⟨t', hok, -⟩
      · rw [wrapInt_of_bounds (by omega) (by omega)] at herr
        exact absurd herr (reserve_ample_ne (by omega) (by omega))
      · exact ⟨_, by simp only [length_cons, length_nil]; rw [hok]; rfl⟩
    · rw [if_neg hcut]
      exact ⟨_, rfl⟩

theorem deallocate_cases (offset : ℕ) :
    (t.deallocate offset = .ok (t, EINVAL) ∧ ∀ r ∈ used t.blocks, r.1 ≠ offset) ∨
      ∃ pre b post t', t.blocks = pre ++ b :: post ∧ b.available = false ∧ b.offset = offset ∧
        t.deallocate offset = .ok (t', 0) ∧ t'.Good total ∧
        used t'.blocks = used pre ++ used post ∧ t'.capacity = t.capacity := by
  unfold deallocate
  cases hfind : t.blocks.findIdx? (·.offset = offset) with
  | none =>
    refine .inl ⟨rfl, fun r hr hoff => ?_⟩
    obtain ⟨b, hb, -, rfl⟩ := mem_used.mp hr
    exact absurd hoff (by simpa using findIdx?_eq_none_iff.mp hfind b hb)
  | some i =>
    obtain ⟨hlt, hoff, -⟩ := findIdx?_eq_some_iff_getElem.mp hfind
    replace hoff : t.blocks[i].offset = offset := by simpa using hoff
    have hb : t.blocks = t.blocks.take i ++ t.blocks[i] :: t.blocks.drop (i + 1) := by
      rw [← drop_eq_getElem_cons hlt, take_append_drop]
    simp only [readAt_of_getElem? (getElem?_eq_getElem hlt), ok_bind]
    cases hav : t.blocks[i].available with
    | true =>
      refine .inl ⟨rfl, fun r hr hr' => ?_⟩
      obtain ⟨c, hc, hcav, rfl⟩ := mem_used.mp hr
      obtain rfl := h.tiled.tiles.eq_of_start hc (getElem_mem hlt) (hr'.trans hoff.symm)
      rw [hav] at hcav
      exact Bool.noConfusion hcav
    | false =>
      have htiled := h.tiled
      rw [hb] at htiled
      obtain ⟨hrel, hused⟩ := htiled.release
      have hlen := released_length (t.blocks.take i) t.blocks[i] (t.blocks.drop (i + 1))
      rw [← hb] at hlen
      have hle := h.length_le
      exact .inr ⟨_, _, _, _, hb, hav, hoff, rfl, ⟨hrel, h.totalBytes, h.room, hlen.1,
        by simp only; omega, h.capacity_lt⟩, hused, rfl⟩

end

end BlockTable

end AndroidEmu.AddressSpace
