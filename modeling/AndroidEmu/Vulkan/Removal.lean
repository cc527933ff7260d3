import AndroidEmu.Vulkan.Reconstruction

/-!
# Removing handles

`removeHandles` calls itself for the handles that were created from the one it removes, which is
marked meanwhile. What a call does to the state is a sequence of five kinds of action. A mark is
taken back by the call that set it, together with the handle.
-/

namespace AndroidEmu.Vulkan

open CS EntityManager Checked Function List Components

abbrev index (h : Handle) : ℕ := Layout.usual.getHandleIndex h

/-! ### Changes that leave the flags and links alone -/

namespace HandleWithStateReconstruction

variable {item : HandleWithStateReconstruction} {st st' : HandleState}
variable {f : HandleReconstruction → HandleReconstruction}

theorem onState_states : (item.onState st f).states st' =
    if st' = st then f (item.states st) else item.states st' := by
  unfold onState
  by_cases hst : st' = st
  · subst hst
    simp
  · simp [hst]

end HandleWithStateReconstruction

variable {v : HandleWithState}

namespace Reconstruction

variable {order : Order} {s s' : Reconstruction} {h : Handle} {i : ℕ}

/-- Exactly this handle is live, and is not being removed. -/
def Stands (s : Reconstruction) (h : Handle) : Prop :=
  ∃ item, s.handles.find h = some item ∧ item.destroying = false

/-- A removal of the handle is under way. -/
def Marked (s : Reconstruction) (i : ℕ) : Prop :=
  ∃ p, s.handles.slot i = some p ∧ p.2.destroying = true

theorem not_stands_of_marked (hm : s.Marked (index h)) : ¬ s.Stands h := by
  rintro ⟨item, hfind, hfree⟩
  obtain ⟨p, hp, hdest⟩ := hm
  rw [find_eq_some, hp] at hfind
  obtain rfl := Option.some.inj hfind
  rw [hdest] at hfree
  cases hfree

/-! ### Actions -/

/-- One change to the state in the course of a removal. -/
inductive Action (s : Reconstruction) : Reconstruction → Prop
  | mark {h : Handle} {item : HandleWithStateReconstruction}
      (hget : s.handles.get h = some item) (hfree : item.destroying = false) :
      Action s (s.onHandle h fun item => { item with destroying := true })
  | delay (h : Handle) : Action s (s.onHandle h fun item => { item with delayedDestroy := true })
  | eraseChild (parent child : HandleWithState) (hgone : ¬ s.Stands child.1) :
      Action s (s.eraseChild parent child)
  | clearLinks (v : HandleWithState) (hmarked : s.Marked (index v.1)) : Action s (s.clearLinks v)
  | drop {h : Handle} {s' : Reconstruction} (hmarked : s.Marked (index h))
      (hdrop : s.dropHandle h = .ok s') : Action s s'

/-- Actions one after the other, that leave the marks as they were. -/
structure Swept (s s' : Reconstruction) : Prop where
  actions : Relation.ReflTransGen Action s s'
  marked : ∀ i, s'.Marked i ↔ s.Marked i

namespace Swept

variable {s'' : Reconstruction}

theorem refl (s : Reconstruction) : Swept s s := ⟨.refl, fun _ => Iff.rfl⟩

theorem trans (h : Swept s s') (h' : Swept s' s'') : Swept s s'' :=
  ⟨h.actions.trans h'.actions, fun i => (h'.marked i).trans (h.marked i)⟩

end Swept

/-! ### Marks -/

variable {f : HandleWithStateReconstruction → HandleWithStateReconstruction}

theorem marked_onHandle (hf : ∀ item, (f item).destroying = item.destroying) (i : ℕ) :
    (s.onHandle h f).Marked i ↔ s.Marked i := by
  unfold Marked onHandle
  rw [slot_modify]
  by_cases hi : i = Layout.usual.getHandleIndex h
  · subst hi
    cases s.handles.slot (Layout.usual.getHandleIndex h) with
    | none => simp
    | some p => simp [hf]
  · rw [update_of_ne hi]

theorem marked_mark {item : HandleWithStateReconstruction} (hget : s.handles.get h = some item)
    (i : ℕ) : (s.onHandle h fun item => { item with destroying := true }).Marked i ↔
      s.Marked i ∨ i = index h := by
  obtain ⟨p, hp, -⟩ := Option.map_eq_some_iff.mp hget
  unfold Marked onHandle
  rw [slot_modify]
  by_cases hi : i = Layout.usual.getHandleIndex h
  · subst hi
    rw [hp]
    simp
  · rw [update_of_ne hi]
    exact (or_iff_left hi).symm

theorem slot_deleteApi (hdel : s.deleteApi h = .ok s') :
    ∀ j, j ≠ index h → s'.handles.slot j = s.handles.slot j := by
  intro j hj
  unfold deleteApi at hdel
  cases hget : s.handles.get h with
  | none =>
    rw [hget] at hdel
    cases hdel
    rfl
  | some item =>
    rw [hget] at hdel
    obtain ⟨apiTrace, -, hdel⟩ := bind_eq_ok.mp hdel
    cases hdel
    exact (congrFun (slot_modify ..) j).trans (update_of_ne hj ..)

section

variable (hdrop : s.dropHandle h = .ok s')

include hdrop

theorem dropHandle_eq_ok :
    ∃ s1, s.deleteApi h = .ok s1 ∧ s' = { s1 with handles := s1.handles.remove h } := by
  obtain ⟨s1, hdel, hdrop⟩ := bind_eq_ok.mp hdrop
  cases hdrop
  obtain ⟨s2, hs2, hnil⟩ := bind_eq_ok.mp hdel
  cases hnil
  exact ⟨s1, hs2, rfl⟩

theorem slot_dropHandle :
    s'.handles.slot = Function.update s.handles.slot (index h) none := by
  obtain ⟨s1, hdel, rfl⟩ := dropHandle_eq_ok hdrop
  funext j
  rw [slot_remove]
  by_cases hj : j = index h
  · rw [hj, update_self, update_self]
  · rw [update_of_ne hj, update_of_ne hj, slot_deleteApi hdel j hj]

theorem marked_dropHandle (i : ℕ) :
    s'.Marked i ↔ s.Marked i ∧ i ≠ index h := by
  unfold Marked
  rw [slot_dropHandle hdrop]
  by_cases hi : i = index h
  · simp [hi]
  · simp [hi]

end

/-! ### The loops -/

theorem unlinkParents_swept (hm : s.Marked (index v.1)) : Swept s (s.unlinkParents v) := by
  unfold unlinkParents
  generalize (s.entry v.1 v.2).parentHandles = parents
  induction parents generalizing s with
  | nil => exact .refl s
  | cons parent parents ih =>
    have hone : Swept s (s.eraseChild parent v) :=
      ⟨.single (.eraseChild parent v (not_stands_of_marked hm)), marked_onHandle fun _ => rfl⟩
    exact hone.trans (ih ((hone.marked _).mpr hm))

theorem clearLinks_swept (hm : s.Marked (index v.1)) : Swept s (s.clearLinks v) :=
  ⟨.single (.clearLinks v hm), marked_onHandle fun _ => rfl⟩

variable {recurse : Reconstruction → List Handle → Checked Reconstruction}

theorem removeLinks_swept (hrec : ∀ s ts s', recurse s ts = .ok s' → Swept s s')
    (hm : s.Marked (index v.1))
    (h : removeLinks order recurse s v = .ok s') : Swept s s' := by
  have hunlink := unlinkParents_swept hm
  have hclear := clearLinks_swept ((hunlink.marked _).mpr hm)
  exact (hunlink.trans hclear).trans (hrec _ _ _ h)

theorem removeHandle_swept (hrec : ∀ s ts s', recurse s ts = .ok s' → Swept s s')
    {recursive : Bool} (hr : removeHandle order recurse recursive s h = .ok s') : Swept s s' := by
  unfold removeHandle at hr
  cases hget : s.handles.get h with
  | none =>
    rw [hget] at hr
    cases hr
    exact .refl s
  | some item =>
    rw [hget] at hr
    dsimp only at hr
    by_cases hdest : item.destroying = true
    · rw [if_pos hdest] at hr
      cases hr
      exact .refl s
    rw [if_neg hdest] at hr
    have hfree : item.destroying = false := by simpa using hdest
    have hnot : ¬ s.Marked (index h) := by
      rintro ⟨p, hp, hpdest⟩
      rw [Components.get, hp] at hget
      obtain rfl := Option.some.inj hget
      exact hdest hpdest
    set marked := s.onHandle h fun item => { item with destroying := true } with hmarked
    have hmark := marked_mark hget
    have hself : marked.Marked (index h) := (hmark _).mpr (.inr rfl)
    -- between the mark and its end the marks are those before and the new one
    have hframe : ∀ {s1}, Swept marked s1 → s1.dropHandle h = .ok s' → Swept s s' := by
      intro s1 hs1 hdrop
      refine ⟨.head (.mark hget hfree)
        (hs1.actions.tail (.drop ((hs1.marked _).mpr hself) hdrop)), fun i => ?_⟩
      rw [marked_dropHandle hdrop, hs1.marked, hmark]
      constructor
      · rintro ⟨hi | hi, hne⟩
        · exact hi
        · exact absurd hi hne
      · intro hi
        exact ⟨.inl hi, fun heq => hnot (heq ▸ hi)⟩
    cases recursive with
    | true =>
      obtain ⟨s1, hs1, hdrop⟩ := bind_eq_ok.mp hr
      refine hframe ?_ hdrop
      exact foldlM_rel Swept.refl (fun _ _ _ => Swept.trans)
        (fun a b hab ha => (hab.marked (index h)).mpr ha)
        (fun a st b ha hb => removeLinks_swept hrec ha hb) _ hself hs1
    | false =>
      rw [if_neg (by decide)] at hr
      split_ifs at hr with hchildren
      · exact hframe (.refl marked) hr
      · -- the mark is taken back at once
        cases hr
        have heq : (marked.onHandle h fun item =>
            { item with delayedDestroy := true, destroying := false }) =
            s.onHandle h fun item => { item with delayedDestroy := true } := by
          simp only [hmarked, onHandle, modify_modify]
          congr 1
          exact modify_congr hget (by rw [← hfree])
        rw [heq]
        exact ⟨.single (.delay h), marked_onHandle fun _ => rfl⟩

theorem removeHandlesTo_swept (depth : ℕ) (recursive : Bool) (ts : List Handle)
    (h : removeHandlesTo order depth recursive s ts = .ok s') : Swept s s' := by
  induction depth generalizing recursive s ts s' with
  | zero => cases h
  | succ depth ih =>
    exact foldlM_rel Swept.refl (fun _ _ _ => Swept.trans) (fun _ _ _ _ => trivial)
      (fun a t b _ hb => removeHandle_swept (fun s ts s' => ih true ts) hb) ts trivial h

theorem removeHandles_swept {ts : List Handle} {recursive : Bool}
    (h : s.removeHandles order ts recursive = .ok s') : Swept s s' :=
  removeHandlesTo_swept _ recursive ts h

/-! ### What stands -/

theorem find_onHandle (s : Reconstruction) (h : Handle)
    (f : HandleWithStateReconstruction → HandleWithStateReconstruction) (g : Handle) :
    (s.onHandle h f).handles.find g =
      if index g = index h then (s.handles.find g).map f else s.handles.find g :=
  find_modify ..

theorem find_dropHandle (hdrop : s.dropHandle h = .ok s') (g : Handle) :
    s'.handles.find g = if index g = index h then none else s.handles.find g := by
  unfold find
  rw [slot_dropHandle hdrop]
  by_cases hg : Layout.usual.getHandleIndex g = index h
  · rw [hg, update_self, if_pos hg]
  · rw [update_of_ne hg, if_neg hg]

theorem stands_of_onHandle {g : Handle} (hg : (s.onHandle h f).Stands g)
    (hf : ∀ item, (f item).destroying = false → item.destroying = false) : s.Stands g := by
  obtain ⟨item, hfind, hfree⟩ := hg
  rw [find_onHandle] at hfind
  split_ifs at hfind
  · obtain ⟨item0, hfind0, rfl⟩ := Option.map_eq_some_iff.mp hfind
    exact ⟨item0, hfind0, hf item0 hfree⟩
  · exact ⟨item, hfind, hfree⟩

theorem Action.stands (ha : Action s s') {g : Handle} (hg : s'.Stands g) : s.Stands g := by
  cases ha with
  | mark hget hfree => exact stands_of_onHandle hg fun _ hdest => by cases hdest
  | delay h => exact stands_of_onHandle hg fun _ hdest => hdest
  | eraseChild parent child hgone => exact stands_of_onHandle hg fun _ hdest => hdest
  | clearLinks v hmarked => exact stands_of_onHandle hg fun _ hdest => hdest
  | drop hmarked hdrop =>
    obtain ⟨item, hfind, hfree⟩ := hg
    rw [find_dropHandle hdrop] at hfind
    split_ifs at hfind
    exact ⟨item, hfind, hfree⟩

theorem Swept.stands (hs : Swept s s') {g : Handle} (hg : s'.Stands g) : s.Stands g := by
  obtain ⟨hactions, -⟩ := hs
  induction hactions with
  | refl => exact hg
  | tail _ ha ih => exact ih (ha.stands hg)

/-! ### The end of the recursion -/

/-- The handles that stand. -/
def standing (s : Reconstruction) : List Handle :=
  (s.handles.lives.filter fun p => !p.2.destroying).map Prod.fst

theorem mem_standing : h ∈ s.standing ↔ s.Stands h := by
  unfold standing Stands
  rw [List.mem_map]
  constructor
  · rintro ⟨⟨g, item⟩, hmem, rfl⟩
    rw [mem_filter, mem_lives] at hmem
    exact ⟨item, hmem.1, by simpa using hmem.2⟩
  · rintro ⟨item, hfind, hfree⟩
    exact ⟨(h, item), by rw [mem_filter, mem_lives]; simp [hfind, hfree], rfl⟩

theorem nodup_standing (s : Reconstruction) : s.standing.Nodup :=
  s.handles.nodup_lives.sublist (filter_sublist.map Prod.fst)

theorem length_standing_le (hsub : ∀ h, s'.Stands h → s.Stands h) :
    s'.standing.length ≤ s.standing.length := by
  apply Subperm.length_le
  apply s'.nodup_standing.subperm
  intro h hh
  exact mem_standing.mpr (hsub h (mem_standing.mp hh))

theorem length_standing_lt (hsub : ∀ h, s'.Stands h → s.Stands h) (hold : s.Stands h)
    (hnew : ¬ s'.Stands h) : s'.standing.length < s.standing.length := by
  have hnodup : (h :: s'.standing).Nodup :=
    nodup_cons.mpr ⟨fun hmem => hnew (mem_standing.mp hmem), s'.nodup_standing⟩
  apply (hnodup.subperm _).length_le
  intro g hg
  rcases mem_cons.mp hg with rfl | hg
  · exact mem_standing.mpr hold
  · exact mem_standing.mpr (hsub g (mem_standing.mp hg))

theorem destroyApiInfo_isOk (apiTrace : Manager Layout.usual ApiInfo) (api : Handle) :
    (destroyApiInfo apiTrace api).IsOk := by
  unfold destroyApiInfo
  cases apiTrace.get api with
  | none => exact ⟨_, rfl⟩
  | some item => exact Manager.remove_isOk _ _

theorem dropHandle_isOk (s : Reconstruction) (h : Handle) : (s.dropHandle h).IsOk := by
  have hdel : (s.deleteApi h).IsOk := by
    unfold deleteApi
    cases s.handles.get h with
    | none => exact ⟨_, rfl⟩
    | some item =>
      apply IsOk.bind
      · refine isOk_foldlM (fun _ => True) (fun m api _ => ?_) _ trivial
        obtain ⟨m', hm'⟩ := destroyApiInfo_isOk m api
        exact ⟨m', hm', trivial⟩
      · exact fun _ _ => ⟨_, rfl⟩
  obtain ⟨s1, hs1⟩ := hdel
  refine ⟨{ s1 with handles := s1.handles.remove h }, ?_⟩
  simp only [dropHandle, forEachHandleDeleteApi, foldlM_cons, hs1, foldlM_nil, ok_bind, pure_eq_ok]

theorem removeHandle_isOk (order : Order) (recursive : Bool) (h : Handle) {bound : ℕ}
    (hrec : ∀ s ts, s.standing.length < bound → (recurse s ts).IsOk)
    (hswept : ∀ s ts s', recurse s ts = .ok s' → Swept s s') (hs : s.standing.length ≤ bound) :
    (removeHandle order recurse recursive s h).IsOk := by
  unfold removeHandle
  cases hget : s.handles.get h with
  | none => exact ⟨s, rfl⟩
  | some item =>
    dsimp only
    by_cases hdest : item.destroying = true
    · rw [if_pos hdest]
      exact ⟨s, rfl⟩
    rw [if_neg hdest]
    cases recursive with
    | false =>
      rw [if_neg (by decide)]
      split_ifs
      · exact dropHandle_isOk _ h
      · exact ⟨_, rfl⟩
    | true =>
      set marked := s.onHandle h fun item => { item with destroying := true } with hmarked
      have hself : marked.Marked (index h) := (marked_mark hget _).mpr (.inr rfl)
      -- the handle that is marked stands no more
      have hlt : marked.standing.length < bound := by
        obtain ⟨g, hindex, hfind⟩ := get_eq_some_iff.mp hget
        apply Nat.lt_of_lt_of_le _ hs
        apply length_standing_lt (h := g)
        · exact fun _ hg => stands_of_onHandle hg fun _ hd => by cases hd
        · exact ⟨item, hfind, by simpa using hdest⟩
        · apply not_stands_of_marked
          have hgh : index g = index h := hindex
          rwa [hgh]
      apply IsOk.bind
      · refine isOk_foldlM
          (fun t => t.Marked (index h) ∧ t.standing.length < bound)
          (fun t st ht => ?_) _ ⟨hself, hlt⟩
        have hunlink := unlinkParents_swept (v := (h, st)) ht.1
        have hclear := hunlink.trans (clearLinks_swept (v := (h, st)) ((hunlink.marked _).mpr ht.1))
        obtain ⟨t', ht'⟩ := hrec ((t.unlinkParents (h, st)).clearLinks (h, st))
          ((t.unlinkParents (h, st)).createdFrom order (h, st))
          (Nat.lt_of_le_of_lt (length_standing_le fun _ => hclear.stands) ht.2)
        have hall := hclear.trans (hswept _ _ _ ht')
        exact ⟨t', ht', (hall.marked _).mpr ht.1,
          Nat.lt_of_le_of_lt (length_standing_le fun _ => hall.stands) ht.2⟩
      · exact fun t _ => dropHandle_isOk t h

theorem removeHandlesTo_isOk (depth : ℕ) (recursive : Bool) (ts : List Handle)
    (hs : s.standing.length < depth) : (removeHandlesTo order depth recursive s ts).IsOk := by
  induction depth generalizing recursive s ts with
  | zero => omega
  | succ depth ih =>
    refine isOk_foldlM (fun t => t.standing.length ≤ depth) (fun t g ht => ?_) ts
      (by omega)
    have hswept : ∀ s ts s', removeHandlesTo order depth true s ts = .ok s' → Swept s s' :=
      fun s ts s' => removeHandlesTo_swept depth true ts
    obtain ⟨t', ht'⟩ := removeHandle_isOk order recursive g
      (fun s ts hlt => ih true ts hlt) hswept ht
    exact ⟨t', ht', (length_standing_le fun _ =>
      (removeHandle_swept hswept ht').stands).trans ht⟩

theorem removeHandles_isOk (s : Reconstruction) (order : Order) (ts : List Handle)
    (recursive : Bool) : (s.removeHandles order ts recursive).IsOk := by
  apply removeHandlesTo_isOk
  unfold standing
  rw [length_map, Nat.lt_succ_iff]
  exact length_filter_le ..

end Reconstruction

end AndroidEmu.Vulkan
