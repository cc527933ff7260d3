import AndroidEmu.CS.Memory
import Mathlib.Order.WellFounded

/-!
# Topological layers by counting

A counter at each vertex says how many of its parents are not yet in a layer. The counters are C
`int`s, and nothing ties them to the number of edges. A vertex is put into a layer at most once, and
only when its counter has come down to zero.
-/

namespace CS.Layers

open Checked Function List

variable {V : Type} [DecidableEq V]

/-! ### The loops -/

/-- Lower the counter at each of the ends, and note those that come to zero. -/
def countDown (total : V → ℤ) (next : List V) : List V → Checked ((V → ℤ) × List V)
  | [] => .ok (total, next)
  | v :: ends => do
    let n ← addInt (total v) (-1)
    countDown (Function.update total v n) (if n = 0 then next ++ [v] else next) ends

/-- The layers from a first one on. There is a layer for each unit of fuel; with more layers
than vertices the loop does not end. -/
def layers (children : V → Checked (List V)) (arrange : List V → List V) :
    ℕ → (V → ℤ) → List V → Checked (List (List V))
  | 0, _, _ => .error .endless
  | fuel + 1, total, next =>
    if next = [] then .ok []
    else do
      let current := arrange next
      let ends ← current.mapM children
      let (total, next) ← countDown total [] ends.flatten
      let rest ← layers children arrange fuel total next
      return current :: rest

section CountDown

variable {total total' : V → ℤ} {next next' ends : List V}

/-- The counters fall by the numbers of edges, and those noted are the ones that came to
zero. -/
theorem countDown_eq_ok (h : countDown total next ends = .ok (total', next')) :
    (∀ v, total' v = total v - ends.count v) ∧ ∃ reached, next' = next ++ reached ∧ reached.Nodup ∧
        ∀ v, v ∈ reached ↔ 1 ≤ total v ∧ total v ≤ ends.count v := by
  induction ends generalizing total next with
  | nil =>
    cases h
    refine ⟨fun v => by simp, [], by simp, nodup_nil, fun v => ?_⟩
    simp only [not_mem_nil, count_nil, false_iff]
    omega
  | cons w ends ih =>
    obtain ⟨n, hn, hrest⟩ := bind_eq_ok.mp h
    obtain rfl : n = total w - 1 := by
      unfold addInt at hn
      split_ifs at hn
      cases hn
      rfl
    obtain ⟨htotal, reached, hnext, hnodup, hmem⟩ := ih hrest
    have hcount : ∀ v, ((w :: ends).count v : ℤ) = ends.count v + if v = w then 1 else 0 := by
      intro v
      by_cases hvw : v = w
      · simp [hvw]
      · simp [hvw, Ne.symm hvw]
    have hlowered : ∀ v, Function.update total w (total w - 1) v =
        total v - if v = w then 1 else 0 := by
      intro v
      by_cases hvw : v = w
      · rw [hvw, update_self, if_pos rfl]
      · rw [update_of_ne hvw, if_neg hvw, sub_zero]
    refine ⟨fun v => ?_, ?_⟩
    · rw [htotal, hlowered, hcount]
      ring
    · by_cases hzero : total w - 1 = 0
      · -- the counter at `w` comes to zero here, and so not later
        refine ⟨w :: reached, ?_, nodup_cons.mpr ⟨?_, hnodup⟩, fun v => ?_⟩
        · rw [hnext, if_pos hzero]
          simp
        · rw [hmem, hlowered, if_pos rfl]
          omega
        · rw [mem_cons, hmem, hlowered, hcount]
          by_cases hvw : v = w
          · subst hvw
            simp only [if_pos, true_or, true_iff]
            omega
          · simp [hvw]
      · refine ⟨reached, ?_, hnodup, fun v => ?_⟩
        · rw [hnext, if_neg hzero]
        · rw [hmem, hlowered, hcount]
          by_cases hvw : v = w
          · subst hvw
            omega
          · simp [hvw]

/-- The loop goes through while the counters stay in range. -/
theorem countDown_isOk (hlow : ∀ v, -2 ^ 31 ≤ total v - ends.count v)
    (hhigh : ∀ v, total v < 2 ^ 31) : (countDown total next ends).IsOk := by
  induction ends generalizing total next with
  | nil => exact ⟨_, rfl⟩
  | cons w ends ih =>
    have hw : ((w :: ends).count w : ℤ) = ends.count w + 1 := by
      rw [count_cons_self]
      push_cast
      rfl
    have hloww := hlow w
    have hhighw := hhigh w
    unfold countDown
    rw [addInt_of_bounds (by omega) (by omega), ok_bind]
    apply ih
    · intro v
      by_cases hvw : v = w
      · rw [hvw, update_self]
        omega
      · rw [update_of_ne hvw]
        have hv := hlow v
        rwa [count_cons_of_ne (Ne.symm hvw)] at hv
    · intro v
      by_cases hvw : v = w
      · rw [hvw, update_self]
        omega
      · rw [update_of_ne hvw]
        exact hhigh v

end CountDown

/-! ### Any counters -/

/-- Between two layers: `done` is in layers, `next` is the layer to come. -/
structure Progress (total0 : V → ℤ) (kids : V → List V) (starts done next : List V)
    (total : V → ℤ) : Prop where
  nodup : (done ++ next).Nodup
  total_eq : ∀ v, total v = total0 v - (done.flatMap kids).count v
  mem_iff : ∀ v, v ∈ done ++ next ↔ v ∈ starts ∨ 1 ≤ total0 v ∧ total v ≤ 0

variable {current ends next' nodes done : List V} {fuel : ℕ}

section Progress

variable {total0 total : V → ℤ} {kids : V → List V} {starts done next : List V}
variable {children : V → Checked (List V)} {arrange : List V → List V}

theorem Progress.start (hnodup : starts.Nodup) : Progress total0 kids starts [] starts total0 where
  nodup := hnodup
  total_eq := fun v => by simp
  mem_iff := fun v => by
    rw [nil_append, or_iff_left]
    omega

omit [DecidableEq V] in
/-- What the children of the vertices of a layer are, one after the other. -/
theorem perm_of_mapM {ends : List (List V)} (hkids : ∀ v ds, children v = .ok ds → ds.Perm (kids v))
    (h : current.mapM children = .ok ends) : ends.flatten.Perm (current.flatMap kids) := by
  induction current generalizing ends with
  | nil =>
    cases h
    rfl
  | cons v current ih =>
    rw [mapM_cons] at h
    obtain ⟨ds, hds, h⟩ := bind_eq_ok.mp h
    obtain ⟨rest, hrest, h⟩ := bind_eq_ok.mp h
    cases h
    exact (hkids v ds hds).append (ih hrest)

/-- One layer. -/
theorem Progress.step {total' : V → ℤ}
    (hstarts : ∀ v ∈ starts, total0 v ≤ 0) (h : Progress total0 kids starts done next total)
    (hcurrent : current.Perm next) (hends : ends.Perm (current.flatMap kids))
    (hcount : countDown total [] ends = .ok (total', next')) :
    Progress total0 kids starts (done ++ current) next' total' := by
  obtain ⟨htotal, reached, hnext, hnodup, hmem⟩ := countDown_eq_ok hcount
  subst hnext
  have hsame : ∀ v, v ∈ done ++ current ↔ v ∈ done ++ next := by
    intro v
    rw [mem_append, mem_append, hcurrent.mem_iff]
  -- a vertex in a layer has a counter that is not positive, so it is not reached again
  have hdone : ∀ v ∈ done ++ next, total v ≤ 0 := by
    intro v hv
    have htotalv := h.total_eq v
    rcases (h.mem_iff v).mp hv with hs | hs
    · have := hstarts v hs
      omega
    · exact hs.2
  constructor
  · apply Nodup.append
    · exact ((hcurrent.append_left done).nodup_iff).mpr h.nodup
    · exact hnodup
    · intro v hv hreached
      have := hdone v ((hsame v).mp hv)
      have := ((hmem v).mp hreached).1
      omega
  · intro v
    rw [htotal, h.total_eq, flatMap_append, count_append, hends.count_eq]
    push_cast
    ring
  · intro v
    have htotalv := htotal v
    have htotal0 := h.total_eq v
    rw [mem_append, hsame, h.mem_iff, hmem]
    constructor
    · rintro ((hs | hs) | hs)
      · exact .inl hs
      · exact .inr (by omega)
      · exact .inr (by omega)
    · rintro (hs | hs)
      · exact .inl (.inl hs)
      · by_cases hpos : 1 ≤ total v
        · exact .inr (by omega)
        · exact .inl (.inr (by omega))

/-- A vertex is the child of each vertex at most once. -/
theorem count_kids_le (hkids : ∀ v ∈ nodes, (kids v).Nodup)
    (hsub : ∀ v ∈ done, v ∈ nodes) (v : V) : (done.flatMap kids).count v ≤ done.length := by
  induction done with
  | nil => exact Nat.le_refl _
  | cons u done ih =>
    have hone := nodup_iff_count_le_one.mp (hkids u (hsub u mem_cons_self)) v
    have hrest := ih fun w hw => hsub w (mem_cons_of_mem u hw)
    rw [flatMap_cons, count_append, length_cons]
    omega

variable (hstarts : ∀ v ∈ starts, total0 v ≤ 0) (harrange : ∀ l, (arrange l).Perm l)
variable (hkids : ∀ v ds, children v = .ok ds → ds.Perm (kids v))

include hstarts harrange hkids

/-- The loop makes progress from layer to layer, and stops when there is no next one. -/
theorem layers_progress {ls : List (List V)} (h : Progress total0 kids starts done next total)
    (hls : layers children arrange fuel total next = .ok ls) :
    (∀ as l bs, ls = as ++ l :: bs → ∃ next total, l.Perm next ∧
        Progress total0 kids starts (done ++ as.flatten) next total) ∧
      ∃ total, Progress total0 kids starts (done ++ ls.flatten) [] total := by
  induction fuel generalizing done next total ls with
  | zero => cases hls
  | succ fuel ih =>
    unfold layers at hls
    by_cases hnil : next = []
    · rw [if_pos hnil] at hls
      cases hls
      refine ⟨fun as l bs heq => by simp at heq, total, ?_⟩
      rw [flatten_nil, append_nil, ← hnil]
      exact h
    rw [if_neg hnil] at hls
    obtain ⟨ends, hends, hls⟩ := bind_eq_ok.mp hls
    obtain ⟨⟨total', next'⟩, hcount, hls⟩ := bind_eq_ok.mp hls
    obtain ⟨rest, hrest, hls⟩ := bind_eq_ok.mp hls
    cases hls
    obtain ⟨hbefore, total'', hend⟩ :=
      ih (h.step hstarts (harrange next) (perm_of_mapM hkids hends) hcount) hrest
    constructor
    · intro as l bs heq
      cases as with
      | nil =>
        obtain ⟨rfl, -⟩ := cons.inj heq
        exact ⟨next, total, harrange next, by rwa [flatten_nil, append_nil]⟩
      | cons a as =>
        obtain ⟨rfl, htail⟩ := cons.inj heq
        rw [flatten_cons, ← append_assoc]
        exact hbefore as l bs htail
    · rw [flatten_cons, ← append_assoc]
      exact ⟨total'', hend⟩

/-- Enough fuel and counters that stay in range let the loop end. -/
theorem layers_isOk (hsub : ∀ v ∈ starts, v ∈ nodes) (hcounted : ∀ v, 1 ≤ total0 v → v ∈ nodes)
    (hchildren : ∀ v ∈ nodes, (children v).IsOk) (hnodup : ∀ v ∈ nodes, (kids v).Nodup)
    (hhigh : ∀ v, total0 v < 2 ^ 31) (hlow : ∀ v, -2 ^ 31 ≤ total0 v - nodes.length)
    (hfuel : nodes.length < fuel + done.length) (h : Progress total0 kids starts done next total) :
    (layers children arrange fuel total next).IsOk := by
  have hmem : ∀ v ∈ done ++ next, v ∈ nodes := by
    intro v hv
    rcases (h.mem_iff v).mp hv with hs | hs
    · exact hsub v hs
    · exact hcounted v hs.1
  induction fuel generalizing done next total with
  | zero =>
    have hle := (Nodup.of_append_left h.nodup).subperm
      (fun v hv => hmem v (mem_append_left _ hv)) |>.length_le
    omega
  | succ fuel ih =>
    unfold layers
    by_cases hnil : next = []
    · rw [if_pos hnil]
      exact ⟨_, rfl⟩
    rw [if_neg hnil]
    have hnextlen : 0 < (arrange next).length := by
      rw [(harrange next).length_eq]
      exact length_pos_of_ne_nil hnil
    have hcurrent : ∀ v ∈ arrange next, v ∈ nodes := fun v hv =>
      hmem v (mem_append_right _ ((harrange next).mem_iff.mp hv))
    obtain ⟨ends, hends⟩ : ∃ ends, (arrange next).mapM children = .ok ends := by
      generalize arrange next = current at hcurrent
      induction current with
      | nil => exact ⟨[], rfl⟩
      | cons v current ihc =>
        obtain ⟨ds, hds⟩ := hchildren v (hcurrent v mem_cons_self)
        obtain ⟨rest, hrest⟩ := ihc fun u hu => hcurrent u (mem_cons_of_mem v hu)
        exact ⟨ds :: rest, by rw [mapM_cons, hds, hrest]; rfl⟩
    have hperm := perm_of_mapM hkids hends
    have hdone : (done ++ arrange next).Nodup :=
      (((harrange next).append_left done).nodup_iff).mpr h.nodup
    have hsubset : ∀ v ∈ done ++ arrange next, v ∈ nodes := by
      intro v hv
      rcases mem_append.mp hv with hv | hv
      · exact hmem v (mem_append_left _ hv)
      · exact hcurrent v hv
    obtain ⟨⟨total', next'⟩, hcount⟩ : (countDown total [] ends.flatten).IsOk := by
      apply countDown_isOk
      · intro v
        have hv := hlow v
        have hcount := count_kids_le hnodup hsubset v
        have hle := (hdone.subperm hsubset).length_le
        rw [flatMap_append, count_append, ← hperm.count_eq] at hcount
        rw [h.total_eq]
        omega
      · intro v
        have hv := hhigh v
        rw [h.total_eq]
        omega
    have hstep := h.step hstarts (harrange next) hperm hcount
    obtain ⟨rest, hrest⟩ := ih (by rw [length_append]; omega) hstep (by
      intro v hv
      rcases (hstep.mem_iff v).mp hv with hs | hs
      · exact hsub v hs
      · exact hcounted v hs.1)
    refine ⟨arrange next :: rest, ?_⟩
    simp only [hends, ok_bind, hcount, hrest, pure_eq_ok]

end Progress

/-! ### Graphs -/

/-- Every vertex in a layer comes after its parents, and the vertices left out are those with
a parent left out. -/
structure Layering (nodes : List V) (parents : V → List V) (ls : List (List V)) : Prop where
  nodup : ls.flatten.Nodup
  mem_flatten : ∀ v, v ∈ ls.flatten ↔ v ∈ nodes ∧ ∀ u ∈ parents v, u ∈ ls.flatten
  before : ∀ as l bs, ls = as ++ l :: bs → ∀ v ∈ l, ∀ u ∈ parents v, u ∈ as.flatten

/-- Vertices with both directions of their edges. Parents and children need not be vertices. -/
structure Graph (nodes : List V) (parents kids : V → List V) : Prop where
  nodup : nodes.Nodup
  nodup_parents : ∀ v ∈ nodes, (parents v).Nodup
  nodup_kids : ∀ v ∈ nodes, (kids v).Nodup
  mem_parents : ∀ u ∈ nodes, ∀ v ∈ nodes, u ∈ parents v ↔ v ∈ kids u

namespace Graph

variable {nodes : List V} {parents kids : V → List V}

/-- The edges from `done` to a vertex are as many as its parents in `done`. -/
theorem count_kids (h : Graph nodes parents kids) (hnodup : done.Nodup)
    (hsub : ∀ u ∈ done, u ∈ nodes) {v : V} (hv : v ∈ nodes) :
    (done.flatMap kids).count v = ((parents v).filter (· ∈ done)).length := by
  have hedges : (done.flatMap kids).count v = (done.filter (· ∈ parents v)).length := by
    clear hnodup
    induction done with
    | nil => rfl
    | cons u done ih =>
      have hu := hsub u mem_cons_self
      rw [flatMap_cons, count_append, ih fun w hw => hsub w (mem_cons_of_mem u hw), filter_cons]
      by_cases hup : u ∈ parents v
      · rw [count_eq_one_of_mem (h.nodup_kids u hu) ((h.mem_parents u hu v hv).mp hup),
          if_pos (by simpa using hup), length_cons, Nat.add_comm]
      · rw [count_eq_zero_of_not_mem fun hk => hup ((h.mem_parents u hu v hv).mpr hk),
          if_neg (by simpa using hup), Nat.zero_add]
  rw [hedges]
  apply Perm.length_eq
  apply (perm_ext_iff_of_nodup (hnodup.filter _) ((h.nodup_parents v hv).filter _)).mpr
  simp [and_comm]

variable {total0 total : V → ℤ} {starts done next : List V}

/-- The vertices of the layers up to the next are those whose parents are all done. -/
theorem mem_iff_of_progress (h : Graph nodes parents kids)
    (htotal : ∀ v ∈ nodes, total0 v = (parents v).length) (hother : ∀ v, v ∉ nodes → total0 v = 0)
    (hstarts : ∀ v, v ∈ starts ↔ v ∈ nodes ∧ parents v = [])
    (hp : Progress total0 kids starts done next total) (v : V) :
    v ∈ done ++ next ↔ v ∈ nodes ∧ ∀ u ∈ parents v, u ∈ done := by
  have hnodes : ∀ u ∈ done ++ next, u ∈ nodes := by
    intro u hu
    rcases (hp.mem_iff u).mp hu with hs | hs
    · exact ((hstarts u).mp hs).1
    · by_contra hnot
      rw [hother u hnot] at hs
      omega
  by_cases hv : v ∈ nodes
  · have hcount := h.count_kids (Nodup.of_append_left hp.nodup)
      (fun u hu => hnodes u (mem_append_left _ hu)) hv
    have hle := length_filter_le (· ∈ done) (parents v)
    rw [hp.mem_iff, hp.total_eq, htotal v hv, hstarts]
    have hall : (∀ u ∈ parents v, u ∈ done) ↔
        ((parents v).filter (· ∈ done)).length = (parents v).length := by simp
    simp only [hv, true_and, hall]
    constructor
    · rintro (hnil | hs)
      · simp [hnil]
      · omega
    · intro heq
      by_cases hnil : parents v = []
      · exact .inl hnil
      · have := length_pos_of_ne_nil hnil
        exact .inr (by omega)
  · simp only [hv, false_and, iff_false]
    exact fun hmem => hv (hnodes v hmem)

/-- The loop over a graph whose counters are the numbers of parents. -/
theorem layering (h : Graph nodes parents kids) {children : V → Checked (List V)}
    {arrange : List V → List V} {ls : List (List V)} (harrange : ∀ l, (arrange l).Perm l)
    (hkids : ∀ v ds, children v = .ok ds → ds.Perm (kids v))
    (htotal : ∀ v ∈ nodes, total0 v = (parents v).length) (hother : ∀ v, v ∉ nodes → total0 v = 0)
    (hls : layers children arrange fuel total0 (nodes.filter (parents · = [])) = .ok ls) :
    Layering nodes parents ls := by
  have hstarts : ∀ v, v ∈ nodes.filter (parents · = []) ↔ v ∈ nodes ∧ parents v = [] := by simp
  have hzero : ∀ v ∈ nodes.filter (parents · = []), total0 v ≤ 0 := by
    intro v hv
    obtain ⟨hv, hnil⟩ := (hstarts v).mp hv
    simp [htotal v hv, hnil]
  obtain ⟨hbefore, total, hend⟩ :=
    layers_progress hzero harrange hkids (.start (h.nodup.filter _)) hls
  rw [nil_append] at hend
  refine ⟨by simpa using hend.nodup, fun v => ?_, fun as l bs heq v hv => ?_⟩
  · rw [← h.mem_iff_of_progress htotal hother hstarts hend v, append_nil]
  · obtain ⟨next, total, hperm, hp⟩ := hbefore as l bs heq
    exact ((h.mem_iff_of_progress htotal hother hstarts hp v).mp
      (mem_append_right _ (hperm.mem_iff.mp hv))).2

end Graph

/-! ### Graphs without cycles -/

namespace Layering

variable {nodes : List V} {parents : V → List V} {ls : List (List V)}

def Parent (nodes : List V) (parents : V → List V) (u v : V) : Prop := v ∈ nodes ∧ u ∈ parents v

abbrev Ancestor (nodes : List V) (parents : V → List V) : V → V → Prop :=
  Relation.TransGen (Parent nodes parents)

def Acyclic (nodes : List V) (parents : V → List V) : Prop := ∀ v, ¬ Ancestor nodes parents v v

/-- Only finitely many vertices have parents, so that without cycles one can argue by induction
over the ancestors. -/
theorem Acyclic.wellFounded (h : Acyclic nodes parents) : WellFounded (Parent nodes parents) := by
  -- a descending chain stays in `nodes` and repeats no vertex
  have hwf : WellFounded fun u v : {v // v ∈ nodes} => Ancestor nodes parents u.1 v.1 := by
    have : Std.Irrefl fun u v : {v // v ∈ nodes} => Ancestor nodes parents u.1 v.1 :=
      ⟨fun v => h v.1⟩
    exact Finite.wellFounded_of_trans_of_irrefl _
  have hacc : ∀ v : {v // v ∈ nodes}, Acc (Parent nodes parents) v.1 := by
    intro v
    induction v using hwf.induction with
    | h v ih =>
      constructor
      intro u hu
      by_cases hmem : u ∈ nodes
      · exact ih ⟨u, hmem⟩ (.single hu)
      · exact ⟨u, fun w hw => absurd hw.1 hmem⟩
  refine ⟨fun v => ?_⟩
  by_cases hv : v ∈ nodes
  · exact hacc ⟨v, hv⟩
  · exact ⟨v, fun u hu => absurd hu.1 hv⟩

/-- Without cycles the layers hold exactly the vertices whose ancestors are all there. -/
theorem mem_iff (h : Layering nodes parents ls) (hacyclic : Acyclic nodes parents) (v : V) :
    v ∈ ls.flatten ↔ v ∈ nodes ∧ ∀ u, Ancestor nodes parents u v → u ∈ nodes := by
  constructor
  · intro hv
    refine ⟨((h.mem_flatten v).mp hv).1, fun u hu => ?_⟩
    suffices u ∈ ls.flatten from ((h.mem_flatten u).mp this).1
    induction hu using Relation.TransGen.head_induction_on with
    | single hp => exact ((h.mem_flatten v).mp hv).2 _ hp.2
    | head hp _ ih => exact ((h.mem_flatten _).mp ih).2 _ hp.2
  · rintro ⟨hv, hall⟩
    induction v using hacyclic.wellFounded.induction with
    | h v ih =>
      rw [h.mem_flatten]
      refine ⟨hv, fun u hu => ?_⟩
      have hp : Parent nodes parents u v := ⟨hv, hu⟩
      exact ih u hp (hall u (.single hp)) fun w hw => hall w (hw.tail hp)

end Layering

end CS.Layers
