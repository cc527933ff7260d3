import AndroidEmu.Vulkan.SaveOrder

/-!
# References to calls

Which pairs of a handle and a state refer to a call, and how each event of the recorder changes
that. A call that is attached to one handle only is referred to once.
-/

namespace AndroidEmu.Vulkan

open CS EntityManager Checked List Option Components Layout Manager

/-- What a lookup of a call compares: the index and the generation of its handle. -/
def key (api : Handle) : ℕ × ℕ := (index api, Layout.usual.getHandleGeneration api)

/-- The call attaches recorded calls to handles. -/
def Event.Attaches : Event → Prop
  | .forEachHandleAddApi _ _ _ => True
  | .forEachHandleAddModifyApi _ _ => True
  | _ => False

variable {xs ys zs toProcess as : List Handle} {a m : Handle}

variable {layers : List (List HandleWithState)} {e : Event} {apis : List (List Handle)}

namespace Reconstruction

variable {order : Order} {s s' : Reconstruction} {h : Handle} {api : Handle} {st : HandleState}

/-! ### References -/

/-- The calls that a pair refers to. -/
def refs (s : Reconstruction) (v : HandleWithState) : List Handle :=
  match s.handles.find v.1 with
  | none => []
  | some item => (item.states v.2).apiRefs

/-- The modifications of a handle. -/
def modRefs (s : Reconstruction) (h : Handle) : List Handle :=
  match s.modifications.find h with
  | none => []
  | some mod => mod.apiRefs

variable {v : HandleWithState}

theorem refs_of_find {item : HandleWithStateReconstruction}
    (hfind : s.handles.find v.1 = some item) : s.refs v = (item.states v.2).apiRefs := by
  rw [refs, hfind]

/-- The calls of all live pairs, with the index of the handle. -/
def calls (s : Reconstruction) : List ((ℕ × ℕ) × ℕ) :=
  s.pairs.flatMap fun v => (s.refs v).map fun a => (key a, index v.1)

/-- The calls recorded as modifications, with the index of the handle. -/
def modCalls (s : Reconstruction) : List (Handle × ℕ) :=
  s.modifications.lives.flatMap fun p => p.2.apiRefs.map fun a => (a, index p.1)

theorem mem_calls (ha : a ∈ s.refs v) : (key a, index v.1) ∈ s.calls := by
  apply mem_flatMap.mpr
  refine ⟨v, ?_, mem_map_of_mem (f := fun a => (key a, index v.1)) ha⟩
  rw [mem_pairs, Live]
  unfold refs at ha
  cases hfind : s.handles.find v.1 with
  | none =>
    rw [hfind] at ha
    cases ha
  | some item => rfl

theorem mem_modCalls (ha : a ∈ s.modRefs m) : (a, index m) ∈ s.modCalls := by
  unfold modRefs at ha
  cases hfind : s.modifications.find m with
  | none =>
    rw [hfind] at ha
    cases ha
  | some mod =>
    rw [hfind] at ha
    exact mem_flatMap.mpr ⟨(m, mod), mem_lives.mpr hfind,
      mem_map_of_mem (f := fun a => (a, index m)) ha⟩

def targets (s : Reconstruction) (toProcess : List Handle) : List Handle :=
  toProcess.filter fun h => (s.handles.get h).isSome

/-- The call is attached to one live handle at most and was not attached before; or it modifies
handles and was not attached to a live one. -/
def AttachedOnce (s : Reconstruction) : Event → Prop
  | .forEachHandleAddApi toProcess api _ =>
    (s.targets toProcess).length ≤ 1 ∧ (s.targets toProcess ≠ [] →
      key api ∉ s.calls.map Prod.fst ∧ key api ∉ s.modCalls.map fun p => key p.1)
  | .forEachHandleAddModifyApi toProcess api =>
    toProcess ≠ [] → key api ∉ s.calls.map Prod.fst ∧
      ∀ p ∈ s.modCalls.map Prod.fst |>.filter (key · = key api), p = api
  | _ => True

/-- The call exists, and is attached to no other handle than this one. -/
def Owned (s : Reconstruction) : Event → Prop
  | .forEachHandleAddApi toProcess api _ => ∀ i ∈ (s.targets toProcess).map index,
      s.apiTrace.Recorded api ∧ (∀ j ∈ (s.targets toProcess).map index, j = i) ∧
        (∀ p ∈ s.calls, p.1 = key api → p.2 = i) ∧
        ∀ p ∈ s.modCalls.map fun p => (key p.1, p.2), p.1 = key api → p.2 = i
  | .forEachHandleAddModifyApi toProcess api => ∀ i ∈ toProcess.map index,
      s.apiTrace.Recorded api ∧ ∀ p ∈ s.calls, p.1 = key api → p.2 = i
  | .setApiTrace api _ _ => (s.apiTrace.get api).isSome = true
  | _ => True

instance (s : Reconstruction) : DecidablePred s.AttachedOnce
  | .forEachHandleAddApi .. => inferInstanceAs (Decidable (_ ∧ (_ → _ ∧ _)))
  | .forEachHandleAddModifyApi _ api =>
    have := List.decidableBAll (fun p => p = api)
      ((s.modCalls.map Prod.fst).filter (key · = key api))
    inferInstanceAs (Decidable (_ → _ ∧ _))
  | .createApiInfo | .setApiTrace .. | .setCreatedHandlesForApi .. | .createExtraHandlesForNextApi _
  | .addHandles _ | .removeHandles .. | .addHandleDependency .. | .forEachHandleClearModifyApi _ =>
    instDecidableTrue

instance (s : Reconstruction) : DecidablePred s.Owned
  | .forEachHandleAddApi .. | .forEachHandleAddModifyApi .. => List.decidableBAll _ _
  | .setApiTrace .. => inferInstanceAs (Decidable (_ = true))
  | .createApiInfo | .setCreatedHandlesForApi .. | .createExtraHandlesForNextApi _ | .addHandles _
  | .removeHandles .. | .addHandleDependency .. | .forEachHandleClearModifyApi _ =>
      instDecidableTrue

/-! ### Calls that leave references alone or take them away -/

/-- Nothing refers to a call that did not before. -/
structure Fewer (s s' : Reconstruction) : Prop where
  refs : ∀ v, s'.refs v = s.refs v ∨ s'.refs v = []
  modRefs : ∀ m, s'.modRefs m = s.modRefs m ∨ s'.modRefs m = []

theorem Fewer.refl (s : Reconstruction) : Fewer s s := ⟨fun _ => .inl rfl, fun _ => .inl rfl⟩

theorem mem_of_kept (h : ys = xs ∨ ys = []) (ha : a ∈ ys) : a ∈ xs := by
  rcases h with rfl | rfl
  · exact ha
  · cases ha

theorem kept_trans (h : ys = xs ∨ ys = []) (h' : zs = ys ∨ zs = []) : zs = xs ∨ zs = [] := by
  rcases h' with rfl | h'
  · exact h
  · exact .inr h'

theorem Fewer.trans {s'' : Reconstruction} (h : Fewer s s') (h' : Fewer s' s'') : Fewer s s'' :=
  ⟨fun v => kept_trans (h.refs v) (h'.refs v), fun m => kept_trans (h.modRefs m) (h'.modRefs m)⟩

theorem Fewer.mem_refs (hf : Fewer s s') (ha : a ∈ s'.refs v) : a ∈ s.refs v :=
  mem_of_kept (hf.refs v) ha

theorem Fewer.mem_modRefs (hf : Fewer s s') (ha : a ∈ s'.modRefs m) : a ∈ s.modRefs m :=
  mem_of_kept (hf.modRefs m) ha

theorem refs_onHandle {f : HandleWithStateReconstruction → HandleWithStateReconstruction}
    (hf : ∀ item st, ((f item).states st).apiRefs = (item.states st).apiRefs)
    (v : HandleWithState) : (s.onHandle h f).refs v = s.refs v := by
  unfold refs
  rw [find_onHandle]
  split_ifs
  · cases s.handles.find v.1 with
    | none => rfl
    | some item => exact hf item v.2
  · rfl

theorem refs_onState {f : HandleReconstruction → HandleReconstruction} (v : HandleWithState)
    (hf : ∀ r, (f r).apiRefs = r.apiRefs) :
    (s.onHandle h fun item => item.onState st f).refs v = s.refs v := by
  apply refs_onHandle
  intro item st'
  rw [HandleWithStateReconstruction.onState_states]
  split_ifs with hst
  · rw [hf, hst]
  · rfl

theorem refs_eraseChild (parent child v : HandleWithState) :
    (s.eraseChild parent child).refs v = s.refs v := by
  apply refs_onState
  exact fun r => rfl

theorem refs_clearLinks (u v : HandleWithState) : (s.clearLinks u).refs v = s.refs v := by
  apply refs_onState
  exact fun r => rfl

theorem refs_insertChild (parent child v : HandleWithState) :
    (s.insertChild parent child).refs v = s.refs v := by
  apply refs_onState
  exact fun r => rfl

theorem refs_pushParent (child parent v : HandleWithState) :
    (s.pushParent child parent).refs v = s.refs v := by
  apply refs_onState
  exact fun r => rfl

theorem refs_dropHandle (hdrop : s.dropHandle h = .ok s') (v : HandleWithState) :
    s'.refs v = if index v.1 = index h then [] else s.refs v := by
  unfold refs
  rw [find_dropHandle hdrop]
  split_ifs
  · rfl
  · rfl

theorem modRefs_dropHandle (hm : s.Marked (index h)) (hdrop : s.dropHandle h = .ok s')
    (m : Handle) : s'.modRefs m = if index m = index h then [] else s.modRefs m := by
  obtain ⟨s1, hdel, rfl⟩ := dropHandle_eq_ok hdrop
  obtain ⟨p, hp, -⟩ := hm
  unfold deleteApi at hdel
  rw [Components.get, hp] at hdel
  obtain ⟨apiTrace, -, hdel⟩ := bind_eq_ok.mp hdel
  cases hdel
  unfold modRefs
  rw [find_modify]
  by_cases hindex : usual.getHandleIndex m = usual.getHandleIndex h
  · rw [if_pos hindex, if_pos hindex]
    cases s.modifications.find m with
    | none => rfl
    | some mod => rfl
  · rw [if_neg hindex, if_neg hindex]

theorem Action.cases_drop (ha : Action s s') :
    (s'.apiTrace = s.apiTrace ∧ (∀ v, s'.refs v = s.refs v) ∧ ∀ m, s'.modRefs m = s.modRefs m) ∨
      ∃ h, s.Marked (index h) ∧ s.dropHandle h = .ok s' := by
  cases ha with
  | mark hget hfree => exact .inl ⟨rfl, refs_onHandle fun _ _ => rfl, fun _ => rfl⟩
  | delay h => exact .inl ⟨rfl, refs_onHandle fun _ _ => rfl, fun _ => rfl⟩
  | eraseChild parent child hgone => exact .inl ⟨rfl, refs_eraseChild parent child, fun _ => rfl⟩
  | clearLinks v hmarked => exact .inl ⟨rfl, refs_clearLinks v, fun _ => rfl⟩
  | drop hmarked hdrop => exact .inr ⟨_, hmarked, hdrop⟩

theorem Action.fewer (ha : Action s s') : Fewer s s' := by
  rcases ha.cases_drop with ⟨-, hrefs, hmods⟩ | ⟨h, hmarked, hdrop⟩
  · exact ⟨fun v => .inl (hrefs v), fun m => .inl (hmods m)⟩
  refine ⟨fun v => ?_, fun m => ?_⟩
  · rw [refs_dropHandle hdrop]
    split_ifs <;> simp
  · rw [modRefs_dropHandle hmarked hdrop]
    split_ifs <;> simp

theorem Swept.fewer (hs : Swept s s') : Fewer s s' := by
  obtain ⟨hactions, -⟩ := hs
  induction hactions with
  | refl => exact .refl s
  | tail _ ha ih => exact ih.trans ha.fewer

theorem fewer_addHandles (s : Reconstruction) (toAdd : List Handle) :
    Fewer s (s.addHandles toAdd) := by
  induction toAdd generalizing s with
  | nil => exact .refl s
  | cons h toAdd ih =>
    have hone : Fewer s (s.addHandle h) := by
      refine ⟨fun v => ?_, fun m => .inl rfl⟩
      unfold refs
      rw [find_addHandle]
      split_ifs
      · exact .inr rfl
      · exact .inr rfl
      · exact .inl rfl
    exact hone.trans (ih (s.addHandle h))

theorem fewer_addDependency (s : Reconstruction) (child parent : HandleWithState) :
    Fewer s (s.addDependency child parent) ∧
      (s.addDependency child parent).apiTrace = s.apiTrace := by
  unfold addDependency
  cases s.handles.get child.1 with
  | none => exact ⟨.refl s, rfl⟩
  | some item =>
    refine ⟨⟨fun v => .inl ?_, fun m => .inl rfl⟩, rfl⟩
    rw [refs_pushParent, refs_insertChild]

theorem fewer_addHandleDependency (s : Reconstruction) (handles : List Handle)
    (parentHandle : Handle) (cs ps : HandleState) :
    Fewer s (s.addHandleDependency handles parentHandle cs ps) ∧
      (s.addHandleDependency handles parentHandle cs ps).apiTrace = s.apiTrace := by
  unfold addHandleDependency
  split_ifs
  · exact ⟨.refl s, rfl⟩
  · cases s.handles.get parentHandle with
    | none => exact ⟨.refl s, rfl⟩
    | some item =>
      induction handles generalizing s with
      | nil => exact ⟨.refl s, rfl⟩
      | cons h handles ih =>
        obtain ⟨hone, htrace⟩ := s.fewer_addDependency (h, cs) (parentHandle, ps)
        obtain ⟨hrest, htrace'⟩ := ih (s.addDependency (h, cs) (parentHandle, ps))
        exact ⟨hone.trans hrest, htrace'.trans htrace⟩

/-! ### Calls that attach -/

def addApi (s : Reconstruction) (h api : Handle) (st : HandleState) : Reconstruction :=
  s.onHandle h fun item => item.onState st fun r => { r with apiRefs := r.apiRefs ++ [api] }

theorem forEachHandleAddApi_cons (s : Reconstruction) (h : Handle) (toProcess : List Handle)
    (api : Handle) (st : HandleState) : s.forEachHandleAddApi (h :: toProcess) api st =
      (s.addApi h api st).forEachHandleAddApi toProcess api st := rfl

theorem apiTrace_forEachHandleAddApi (s : Reconstruction) (toProcess : List Handle) (api : Handle)
    (st : HandleState) : (s.forEachHandleAddApi toProcess api st).apiTrace = s.apiTrace := by
  induction toProcess generalizing s with
  | nil => rfl
  | cons h toProcess ih =>
    rw [forEachHandleAddApi_cons, ih]
    rfl

theorem refs_addApi (s : Reconstruction) (h api : Handle) (st : HandleState) (v : HandleWithState) :
    (s.addApi h api st).refs v =
      if s.Live v ∧ index v.1 = index h ∧ v.2 = st then s.refs v ++ [api] else s.refs v := by
  cases hfind : s.handles.find v.1 with
  | none =>
    have hnot : ¬ s.Live v := by simp [Live, hfind]
    rw [if_neg fun hv => hnot hv.1, refs, refs, addApi, find_onHandle, hfind]
    simp
  | some item =>
    have hlive : s.Live v := by simp [Live, hfind]
    rw [refs, refs, addApi, find_onHandle, hfind]
    by_cases hindex : index v.1 = index h
    · rw [if_pos hindex, map_some]
      dsimp only
      rw [HandleWithStateReconstruction.onState_states]
      by_cases hst : v.2 = st
      · simp [hst, hindex, hlive]
      · simp [hst]
    · simp [hindex]

theorem isSome_get_addApi (s : Reconstruction) (h api : Handle) (st : HandleState) (g : Handle) :
    ((s.addApi h api st).handles.get g).isSome = (s.handles.get g).isSome :=
  isSome_get_onHandle g

theorem targets_addApi (s : Reconstruction) (h api : Handle) (st : HandleState)
    (toProcess : List Handle) : (s.addApi h api st).targets toProcess = s.targets toProcess := by
  unfold targets
  simp only [isSome_get_addApi]

theorem not_live_of_get (hget : s.handles.get h = none)
    (hindex : index v.1 = index h) : ¬ s.Live v := by
  intro hlive
  obtain ⟨item, hfind⟩ := isSome_iff_exists.mp hlive
  rw [get_eq_some_iff.mpr ⟨v.1, hindex, hfind⟩] at hget
  cases hget

theorem refs_addApi_of_get (hget : s.handles.get h = none) (v : HandleWithState) :
    (s.addApi h api st).refs v = s.refs v := by
  rw [refs_addApi, if_neg]
  exact fun hv => not_live_of_get hget hv.2.1 hv.1

theorem fewer_forEachHandleAddApi (hnone : s.targets toProcess = []) :
    Fewer s (s.forEachHandleAddApi toProcess api st) := by
  induction toProcess generalizing s with
  | nil => exact .refl s
  | cons h toProcess ih =>
    have hget : s.handles.get h = none := by
      by_contra hsome
      have hmem : h ∈ s.targets (h :: toProcess) :=
        mem_filter.mpr ⟨mem_cons_self, by simpa [isSome_iff_ne_none] using hsome⟩
      rw [hnone] at hmem
      cases hmem
    refine Fewer.trans ⟨fun v => .inl (refs_addApi_of_get hget v), fun _ => .inl rfl⟩ (ih ?_)
    rw [targets_addApi]
    unfold targets at hnone ⊢
    rwa [filter_cons_of_neg (by simp [hget])] at hnone

/-- Record the same modifications for each of the handles. -/
def setModRefs (s : Reconstruction) (toProcess refs : List Handle) : Reconstruction :=
  { s with
    modifications := toProcess.foldl (fun mods h => mods.add h ⟨refs, 0⟩) s.modifications }

theorem modRefs_setModRefs (s : Reconstruction) (toProcess refs : List Handle) (m : Handle) :
    (s.setModRefs toProcess refs).modRefs m = s.modRefs m ∨
      (s.setModRefs toProcess refs).modRefs m = [] ∨
      m ∈ toProcess ∧ (s.setModRefs toProcess refs).modRefs m = refs := by
  induction toProcess generalizing s with
  | nil => exact .inl rfl
  | cons h toProcess ih =>
    have hcons : s.setModRefs (h :: toProcess) refs =
        (s.setModRefs [h] refs).setModRefs toProcess refs := rfl
    rw [hcons]
    rcases ih (s.setModRefs [h] refs) with hsame | hnil | ⟨hmem, hrefs⟩
    · rw [hsame]
      unfold modRefs setModRefs
      simp only [foldl_cons, foldl_nil]
      rw [find_add]
      split_ifs with hmh
      · exact .inr (.inr ⟨hmh ▸ mem_cons_self, rfl⟩)
      · exact .inr (.inl rfl)
      · exact .inl rfl
    · exact .inr (.inl hnil)
    · exact .inr (.inr ⟨mem_cons_of_mem h hmem, hrefs⟩)

theorem fewer_setModRefs (s : Reconstruction) (toProcess : List Handle) :
    Fewer s (s.setModRefs toProcess []) := by
  refine ⟨fun v => .inl rfl, fun m => ?_⟩
  rcases s.modRefs_setModRefs toProcess [] m with hm | hm | ⟨-, hm⟩
  · exact .inl hm
  · exact .inr hm
  · exact .inr hm

theorem mem_modRefs_setModRefs (ha : a ∈ (s.setModRefs toProcess [api]).modRefs m) :
    a ∈ s.modRefs m ∨ m ∈ toProcess ∧ a = api := by
  rcases s.modRefs_setModRefs toProcess [api] m with hm | hm | ⟨hmem, hm⟩
  · exact .inl (hm ▸ ha)
  · rw [hm] at ha
    cases ha
  · rw [hm, mem_singleton] at ha
    exact .inr ⟨hmem, ha⟩

theorem step_fewer (he : ¬ e.Attaches) {o : Option Handle}
    (hstep : step order s e = .ok (s', o)) : Fewer s s' := by
  cases e with
  | createApiInfo =>
    obtain ⟨⟨s1, h⟩, hcreate, hs'⟩ := bind_eq_ok.mp hstep
    obtain ⟨⟨apiTrace, h'⟩, -, hs1⟩ := bind_eq_ok.mp hcreate
    cases hs1
    cases hs'
    exact ⟨fun v => .inl rfl, fun m => .inl rfl⟩
  | setApiTrace a opCode trace =>
    obtain ⟨s1, hset, hs'⟩ := bind_eq_ok.mp hstep
    obtain ⟨item, -, hs1⟩ := bind_eq_ok.mp hset
    cases hs1
    cases hs'
    exact ⟨fun v => .inl rfl, fun m => .inl rfl⟩
  | setCreatedHandlesForApi a created =>
    cases hstep
    unfold setCreatedHandlesForApi
    split
    · exact .refl s
    · exact ⟨fun v => .inl rfl, fun m => .inl rfl⟩
  | createExtraHandlesForNextApi created =>
    cases hstep
    exact ⟨fun v => .inl rfl, fun m => .inl rfl⟩
  | addHandles toAdd =>
    cases hstep
    exact s.fewer_addHandles toAdd
  | removeHandles toRemove recursive =>
    obtain ⟨s1, hremove, hs'⟩ := bind_eq_ok.mp hstep
    cases hs'
    exact (removeHandles_swept hremove).fewer
  | forEachHandleAddApi toProcess a st => exact absurd trivial he
  | addHandleDependency handles parentHandle cs ps =>
    cases hstep
    exact (s.fewer_addHandleDependency handles parentHandle cs ps).1
  | forEachHandleAddModifyApi toProcess a => exact absurd trivial he
  | forEachHandleClearModifyApi toProcess =>
    cases hstep
    exact s.fewer_setModRefs toProcess

/-! ### Each call once -/

/-- No call is attached twice, or both attached and recorded as a modification; and a call recorded
as a modification is always recorded by the same handle. -/
structure Once (s : Reconstruction) : Prop where
  nodup : ∀ v, ((s.refs v).map key).Nodup
  apart : ∀ u v, u ≠ v → ∀ a ∈ s.refs u, ∀ b ∈ s.refs v, key a ≠ key b
  modified : ∀ v m, ∀ a ∈ s.refs v, ∀ b ∈ s.modRefs m, key a ≠ key b
  same : ∀ m m', ∀ a ∈ s.modRefs m, ∀ b ∈ s.modRefs m', key a = key b → a = b

namespace Once

theorem fewer (ho : s.Once) (hf : Fewer s s') : s'.Once := by
  constructor
  · intro v
    rcases hf.refs v with hv | hv
    · rw [hv]
      exact ho.nodup v
    · rw [hv]
      exact nodup_nil
  · exact fun u v huv a ha b hb => ho.apart u v huv a (hf.mem_refs ha) b (hf.mem_refs hb)
  · exact fun v m a ha b hb => ho.modified v m a (hf.mem_refs ha) b (hf.mem_modRefs hb)
  · exact fun m m' a ha b hb => ho.same m m' a (hf.mem_modRefs ha) b (hf.mem_modRefs hb)

theorem addApi (ho : s.Once) (hcalls : key api ∉ s.calls.map Prod.fst)
    (hmods : key api ∉ s.modCalls.map fun p => key p.1) : (s.addApi h api st).Once := by
  have hnew : ∀ v, ∀ a ∈ s.refs v, key a ≠ key api := fun v a ha heq =>
    hcalls (mem_map.mpr ⟨_, mem_calls ha, heq⟩)
  have hnewMod : ∀ m, ∀ b ∈ s.modRefs m, key api ≠ key b := fun m b hb heq =>
    hmods (mem_map.mpr ⟨_, mem_modCalls hb, heq.symm⟩)
  -- the one pair that the call is attached to
  have hcases : ∀ v, (s.addApi h api st).refs v = s.refs v ∨
      (s.addApi h api st).refs v = s.refs v ++ [api] ∧
        s.Live v ∧ index v.1 = index h ∧ v.2 = st := by
    intro v
    rw [refs_addApi]
    split_ifs with hv
    · exact .inr ⟨rfl, hv⟩
    · exact .inl rfl
  have hmem : ∀ v, ∀ a ∈ (s.addApi h api st).refs v, a ∈ s.refs v ∨
      a = api ∧ s.Live v ∧ index v.1 = index h ∧ v.2 = st := by
    intro v a ha
    rcases hcases v with hv | ⟨hv, hwhere⟩
    · exact .inl (hv ▸ ha)
    · rw [hv, mem_append, mem_singleton] at ha
      exact ha.imp_right fun heq => ⟨heq, hwhere⟩
  constructor
  · intro v
    rcases hcases v with hv | ⟨hv, -⟩
    · rw [hv]
      exact ho.nodup v
    rw [hv, map_append]
    apply nodup_append_comm.mp
    refine nodup_cons.mpr ⟨fun hk => ?_, ho.nodup v⟩
    obtain ⟨a, ha, heq⟩ := mem_map.mp hk
    exact hnew v a ha heq
  · intro u v huv a ha b hb
    rcases hmem u a ha with ha' | ⟨hapi, hlive, hu, hust⟩
    · rcases hmem v b hb with hb' | ⟨hbapi, -⟩
      · exact ho.apart u v huv a ha' b hb'
      · rw [hbapi]
        exact hnew u a ha'
    rw [hapi]
    rcases hmem v b hb with hb' | ⟨-, hlive', hv, hvst⟩
    · exact fun heq => hnew v b hb' heq.symm
    · -- two live pairs of one index and state are the same
      obtain ⟨c, hc⟩ := isSome_iff_exists.mp hlive
      obtain ⟨d, hd⟩ := isSome_iff_exists.mp hlive'
      exact absurd (Prod.ext (eq_of_find hc hd (hu.trans hv.symm)) (hust.trans hvst.symm)) huv
  · intro v m a ha b hb
    rcases hmem v a ha with ha' | ⟨hapi, -⟩
    · exact ho.modified v m a ha' b hb
    · rw [hapi]
      exact hnewMod m b hb
  · exact ho.same

theorem forEachHandleAddApi (ho : s.Once) (hone : (s.targets toProcess).length ≤ 1)
    (hnew : s.targets toProcess ≠ [] →
      key api ∉ s.calls.map Prod.fst ∧ key api ∉ s.modCalls.map fun p => key p.1) :
    (s.forEachHandleAddApi toProcess api st).Once := by
  induction toProcess generalizing s with
  | nil => exact ho
  | cons h toProcess ih =>
    cases hget : s.handles.get h with
    | none =>
      -- nothing is attached yet
      have htargets : s.targets (h :: toProcess) = s.targets toProcess :=
        filter_cons_of_neg (by simp [hget])
      rw [htargets] at hone hnew
      have hsame : ∀ v, (s.addApi h api st).refs v = s.refs v := refs_addApi_of_get hget
      apply ih (ho.fewer ⟨fun v => .inl (hsame v), fun _ => .inl rfl⟩)
      · rwa [targets_addApi]
      · rw [targets_addApi]
        intro hsome
        refine ⟨fun hk => (hnew hsome).1 ?_, (hnew hsome).2⟩
        obtain ⟨p, hp, heq⟩ := mem_map.mp hk
        obtain ⟨v, -, hv⟩ := mem_flatMap.mp hp
        obtain ⟨a, ha, rfl⟩ := mem_map.mp hv
        rw [hsame] at ha
        exact mem_map.mpr ⟨_, mem_calls ha, heq⟩
    | some item =>
      have htargets : s.targets (h :: toProcess) = h :: s.targets toProcess :=
        filter_cons_of_pos (by simp [hget])
      rw [htargets, length_cons] at hone
      obtain ⟨hcalls, hmods⟩ := hnew (by rw [htargets]; exact cons_ne_nil _ _)
      apply (ho.addApi hcalls hmods).fewer
      apply fewer_forEachHandleAddApi
      rw [targets_addApi]
      exact eq_nil_of_length_eq_zero (by omega)

theorem setModRefs (ho : s.Once) (hnew : toProcess ≠ [] → key api ∉ s.calls.map Prod.fst ∧
      ∀ p ∈ s.modCalls.map Prod.fst |>.filter (key · = key api), p = api) :
    (s.setModRefs toProcess [api]).Once := by
  have hcalls : ∀ {m : Handle}, m ∈ toProcess → ∀ v, ∀ a ∈ s.refs v, key a ≠ key api := by
    intro m hm v a ha heq
    exact (hnew (ne_nil_of_mem hm)).1 (mem_map.mpr ⟨_, mem_calls ha, heq⟩)
  have hmods :
      ∀ {m : Handle}, m ∈ toProcess → ∀ m', ∀ b ∈ s.modRefs m', key b = key api → b = api := by
    intro m hm m' b hb heq
    exact (hnew (ne_nil_of_mem hm)).2 b (mem_filter.mpr
      ⟨mem_map.mpr ⟨_, mem_modCalls hb, rfl⟩, by simpa using heq⟩)
  refine ⟨ho.nodup, ho.apart, fun v m a ha b hb => ?_, fun m m' a ha b hb heq => ?_⟩
  · rcases mem_modRefs_setModRefs hb with hb' | ⟨hm, hbapi⟩
    · exact ho.modified v m a ha b hb'
    · rw [hbapi]
      exact hcalls hm v a ha
  · rcases mem_modRefs_setModRefs ha with ha' | ⟨hm, haapi⟩
    · rcases mem_modRefs_setModRefs hb with hb' | ⟨hm', hbapi⟩
      · exact ho.same m m' a ha' b hb' heq
      · rw [hbapi] at heq ⊢
        exact hmods hm' m a ha' heq
    · rcases mem_modRefs_setModRefs hb with hb' | ⟨hm', hbapi⟩
      · rw [haapi] at heq ⊢
        exact (hmods hm m' b hb' heq.symm).symm
      · rw [haapi, hbapi]

theorem step (ho : s.Once) (he : s.AttachedOnce e) {o : Option Handle}
    (hstep : step order s e = .ok (s', o)) : s'.Once := by
  cases e with
  | forEachHandleAddApi toProcess a st =>
    cases hstep
    exact ho.forEachHandleAddApi he.1 he.2
  | forEachHandleAddModifyApi toProcess a =>
    cases hstep
    exact ho.setModRefs he
  | _ => exact ho.fewer (step_fewer (by simp [Event.Attaches]) hstep)

end Once

theorem refs_new (v : HandleWithState) : new.refs v = [] := by
  rw [refs, new, find_empty]

theorem modRefs_new (m : Handle) : new.modRefs m = [] := by
  rw [modRefs, new, find_empty]

theorem once_new : new.Once := by
  constructor <;> simp [refs_new, modRefs_new]

end Reconstruction

end AndroidEmu.Vulkan
