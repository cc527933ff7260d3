import AndroidEmu.Vulkan.ApiRefs

/-!
# The calls of a saved reconstruction

`save` writes a call once for each pair that refers to it, and a removal destroys the calls of the
handle it removes, whoever else refers to them. Both are as they should be if each call is attached
to one handle, for the trace once and not also as a modification.
-/

namespace AndroidEmu.Vulkan

open CS EntityManager Checked List Option Components Layout Manager

variable {xs ys zs toProcess as : List Handle} {a m : Handle}

variable {layers : List (List HandleWithState)} {e : Event} {apis : List (List Handle)}

namespace Reconstruction

variable {order : Order} {s s' : Reconstruction} {h : Handle} {api : Handle} {st : HandleState}
  {v : HandleWithState}

/-! ### The trace -/

theorem nodup_handlesByTopoOrder (h : s.handlesByTopoOrder order = .ok layers) :
    layers.flatten.Nodup ∧ ∀ v ∈ layers.flatten, v ∈ s.pairs := by
  obtain ⟨-, total, hend⟩ := Layers.layers_progress totalParents_of_starts order.sortHandles_perm
    childrenOf_perm (.start (s.nodup_pairs.filter _)) h
  refine ⟨by simpa using hend.nodup, fun v hv => ?_⟩
  rcases (hend.mem_iff v).mp (by simpa using hv) with hstart | ⟨hcount, -⟩
  · exact mem_of_mem_filter hstart
  · by_contra hnot
    rw [totalParents_of_not_mem hnot] at hcount
    omega

theorem apiRefsOf_of_mem (hv : v ∈ s.pairs) : s.apiRefsOf v = .ok (s.refs v) := by
  obtain ⟨item, hfind⟩ := isSome_iff_exists.mp (mem_pairs.mp hv)
  rw [apiRefsOf, entryOf, get_of_find hfind, refs_of_find hfind]
  rfl

theorem nextApis_of_mem {handles : List HandleWithState} (hmem : ∀ v ∈ handles, v ∈ s.pairs) :
    s.nextApis handles = .ok (handles.flatMap s.refs) := by
  have hmap : handles.mapM s.apiRefsOf = .ok (handles.map s.refs) := by
    induction handles with
    | nil => rfl
    | cons v handles ih =>
      rw [mapM_cons, apiRefsOf_of_mem (hmem v mem_cons_self),
        ih fun u hu => hmem u (mem_cons_of_mem v hu)]
      rfl
  rw [nextApis, hmap]
  rfl

theorem mapM_nextApis (hmem : ∀ v ∈ layers.flatten, v ∈ s.pairs) :
    layers.mapM s.nextApis = .ok (layers.map (·.flatMap s.refs)) := by
  induction layers with
  | nil => rfl
  | cons layer layers ih =>
    rw [mapM_cons, nextApis_of_mem fun v hv => hmem v (mem_append_left _ hv),
      ih fun v hv => hmem v (mem_append_right _ hv)]
    rfl

theorem mem_of_mem_keepFirst {used : UnorderedSet Handle}
    (ha : a ∈ keepFirst used as) : a ∉ used ∧ a ∈ as := by
  induction as generalizing used with
  | nil => cases ha
  | cons b as ih =>
    unfold keepFirst at ha
    split_ifs at ha with hb
    · exact ⟨(ih ha).1, mem_cons_of_mem b (ih ha).2⟩
    · rcases mem_cons.mp ha with rfl | ha
      · exact ⟨hb, mem_cons_self⟩
      · obtain ⟨hused, hmem⟩ := ih ha
        exact ⟨fun hu => hused (UnorderedSet.mem_insert.mpr (.inr hu)), mem_cons_of_mem b hmem⟩

theorem nodup_keepFirst (used : UnorderedSet Handle) (as : List Handle) :
    (keepFirst used as).Nodup := by
  induction as generalizing used with
  | nil => exact nodup_nil
  | cons a as ih =>
    unfold keepFirst
    split_ifs
    · exact ih used
    · refine nodup_cons.mpr ⟨fun ha => ?_, ih _⟩
      exact (mem_of_mem_keepFirst ha).1 (UnorderedSet.mem_insert.mpr (.inl rfl))

theorem mem_getOrderedUniqueModifyApis (ha : a ∈ s.getOrderedUniqueModifyApis order) :
    ∃ m, a ∈ s.modRefs m := by
  obtain ⟨mod, hmod, hrefs⟩ := mem_flatMap.mp (mem_of_mem_keepFirst ha).2
  obtain ⟨⟨m, mod⟩, hlive, rfl⟩ := mem_map.mp ((order.sortModifies_perm _).mem_iff.mp hmod)
  exact ⟨m, by rwa [modRefs, mem_lives.mp hlive]⟩

theorem uniqApiRefsByTopoOrder_eq (h : s.uniqApiRefsByTopoOrder order = .ok apis) :
    ∃ layers, s.handlesByTopoOrder order = .ok layers ∧
      apis.flatten = layers.flatten.flatMap s.refs ++ s.getOrderedUniqueModifyApis order := by
  obtain ⟨layers, hlayers, h⟩ := bind_eq_ok.mp h
  obtain ⟨apis', hapis, h⟩ := bind_eq_ok.mp h
  cases h
  rw [mapM_nextApis (nodup_handlesByTopoOrder hlayers).2] at hapis
  cases hapis
  refine ⟨layers, hlayers, ?_⟩
  have hflat : ∀ ls : List (List HandleWithState),
      (ls.map (·.flatMap s.refs)).flatten = ls.flatten.flatMap s.refs := by
    intro ls
    induction ls with
    | nil => rfl
    | cons layer ls ih =>
      rw [map_cons, flatten_cons, ih, flatten_cons, flatMap_append]
  rw [flatten_append, flatten_singleton, hflat]

theorem Once.nodup_keys (ho : s.Once)
    (h : s.uniqApiRefsByTopoOrder order = .ok apis) : (apis.flatten.map key).Nodup := by
  obtain ⟨layers, hlayers, hflat⟩ := uniqApiRefsByTopoOrder_eq h
  rw [hflat, map_append, map_flatMap]
  apply Nodup.append
  · rw [nodup_flatMap]
    refine ⟨fun v _ => ho.nodup v, (nodup_handlesByTopoOrder hlayers).1.imp fun huv => ?_⟩
    intro k hk hk'
    obtain ⟨a, ha, rfl⟩ := mem_map.mp hk
    obtain ⟨b, hb, heq⟩ := mem_map.mp hk'
    exact ho.apart _ _ huv a ha b hb heq.symm
  · -- among the modifications a call has one handle
    apply Nodup.map_on
    · intro a ha b hb heq
      obtain ⟨m, ha⟩ := mem_getOrderedUniqueModifyApis ha
      obtain ⟨m', hb⟩ := mem_getOrderedUniqueModifyApis hb
      exact ho.same m m' a ha b hb heq
    · exact nodup_keepFirst _ _
  · intro k hk hk'
    obtain ⟨v, -, hv⟩ := mem_flatMap.mp hk
    obtain ⟨a, ha, rfl⟩ := mem_map.mp hv
    obtain ⟨b, hb, heq⟩ := mem_map.mp hk'
    obtain ⟨m, hb⟩ := mem_getOrderedUniqueModifyApis hb
    exact ho.modified v m a ha b hb heq.symm

/-! ### Calls that exist -/

/-- Every reference is to a call that exists, and a call belongs to one handle: what refers to
it is recorded for one index. Calls that only modify may be recorded for several. -/
structure Sound (s : Reconstruction) : Prop where
  holds : ∃ free, s.apiTrace.Holds free
  recorded : ∀ v, ∀ a ∈ s.refs v, s.apiTrace.Recorded a
  recordedMod : ∀ m, ∀ a ∈ s.modRefs m, s.apiTrace.Recorded a
  owner : ∀ u v, ∀ a ∈ s.refs u, ∀ b ∈ s.refs v, key a = key b → index u.1 = index v.1
  ownerMod : ∀ u m, ∀ a ∈ s.refs u, ∀ b ∈ s.modRefs m, key a = key b → index u.1 = index m

namespace Sound

theorem fewer (hs : s.Sound) (hf : Fewer s s') (hholds : ∃ free, s'.apiTrace.Holds free)
    (hkeep : ∀ a, s.apiTrace.Recorded a → s'.apiTrace.Recorded a) : s'.Sound where
  holds := hholds
  recorded v a ha := hkeep a (hs.recorded v a (hf.mem_refs ha))
  recordedMod m a ha := hkeep a (hs.recordedMod m a (hf.mem_modRefs ha))
  owner u v a ha b hb := hs.owner u v a (hf.mem_refs ha) b (hf.mem_refs hb)
  ownerMod u m a ha b hb := hs.ownerMod u m a (hf.mem_refs ha) b (hf.mem_modRefs hb)

end Sound

section Destroy

variable {m m' : Manager Layout.usual ApiInfo} {free : List ℕ} {a b : Handle}

theorem two_le_generationBits : 2 ≤ Layout.usual.generationBits := by decide

/-- Destroying a call that exists, or is not found: it is not found afterwards, and the others
are as they were. -/
theorem destroyApiInfo_spec (hm : m.Holds free) (ha : m.Recorded a ∨ m.get a = none)
    (h : destroyApiInfo m a = .ok m') :
    (∃ free', m'.Holds free') ∧ (∀ b, index b ≠ index a → (m'.Recorded b ↔ m.Recorded b) ∧
        ((m'.get b).isSome = (m.get b).isSome)) ∧
      ∀ b, key b = key a → m'.get b = none := by
  have hkey : ∀ b, key b = key a → (m.get b).isSome = (m.get a).isSome := by
    intro b hb
    obtain ⟨hindex, hgen⟩ := Prod.mk.inj hb
    simp only [Manager.get, hindex, hgen]
  unfold destroyApiInfo at h
  cases hget : m.get a with
  | none =>
    rw [hget] at h
    cases h
    refine ⟨⟨free, hm⟩, fun b _ => ⟨Iff.rfl, rfl⟩, fun b hb => ?_⟩
    have hb := hkey b hb
    rw [hget] at hb
    simpa using hb
  | some item =>
    rw [hget] at h
    have hrec : m.Recorded a := ha.resolve_right (by rw [hget]; exact some_ne_none _)
    have hmod : (m.modify a fun item => { item with
        traceBytes := 0, createdHandles := [], traceBytes_le := Nat.zero_le _ }).Recorded a :=
      recorded_modify.mpr hrec
    obtain ⟨m1, hm1, hholds, hcontents⟩ :=
      (hm.modify).remove two_le_generationBits fun _ => hmod.liveAt
    rw [hm1] at h
    cases h
    rw [if_pos hmod.isSome_get] at hcontents
    refine ⟨hholds, fun b hb => ⟨?_, ?_⟩, fun b hb => ?_⟩
    · rw [← recorded_modify (m := m) (h := a)]
      apply recorded_congr
      rw [hcontents, Function.update_of_ne hb]
    · rw [get_remove_of_ne hb hm1, get_modify]
    · obtain ⟨hindex, hgen⟩ := Prod.mk.inj hb
      exact get_remove_of_recorded two_le_generationBits hm.modify hmod hm1 hindex hgen

theorem destroyAll_spec {refs : List Handle} (hm : m.Holds free)
    (hrefs : ∀ a ∈ refs, m.Recorded a ∨ m.get a = none)
    (hkey : ∀ a ∈ refs, ∀ b ∈ refs, index a = index b → key a = key b)
    (h : refs.foldlM destroyApiInfo m = .ok m') : (∃ free', m'.Holds free') ∧
      ∀ b, (∀ a ∈ refs, index a ≠ index b) → (m'.Recorded b ↔ m.Recorded b) := by
  induction refs generalizing m free with
  | nil =>
    cases h
    exact ⟨⟨free, hm⟩, fun b _ => Iff.rfl⟩
  | cons a refs ih =>
    obtain ⟨m1, hm1, hrest⟩ := bind_eq_ok.mp h
    obtain ⟨⟨free1, hholds⟩, hother, hgone⟩ :=
      destroyApiInfo_spec hm (hrefs a mem_cons_self) hm1
    have hleft : ∀ b ∈ refs, m1.Recorded b ∨ m1.get b = none := by
      intro b hb
      by_cases hindex : index b = index a
      · exact .inr (hgone b (hkey b (mem_cons_of_mem a hb) a mem_cons_self hindex))
      · obtain ⟨hrec, hget⟩ := hother b hindex
        rw [hrec, ← not_isSome_iff_eq_none, hget, not_isSome_iff_eq_none]
        exact hrefs b (mem_cons_of_mem a hb)
    obtain ⟨hholds', hkeep⟩ := ih hholds hleft
      (fun b hb c hc => hkey b (mem_cons_of_mem a hb) c (mem_cons_of_mem a hc)) hrest
    refine ⟨hholds', fun b hb => ?_⟩
    rw [hkeep b fun c hc => hb c (mem_cons_of_mem a hc), (hother b (hb a mem_cons_self).symm).1]

theorem key_eq_of_recorded (ha : m.Recorded a) (hb : m.Recorded b) (hindex : index a = index b) :
    key a = key b := by
  obtain ⟨p, hp, hgen⟩ := ha
  obtain ⟨q, hq, hgen'⟩ := hb
  have hpq : p = q := by
    have : index a = index b := hindex
    rw [show usual.getHandleIndex a = usual.getHandleIndex b from this, hq] at hp
    exact (some.inj hp).symm
  subst hpq
  exact Prod.ext hindex (hgen.symm.trans hgen')

end Destroy

namespace Sound

theorem dropHandle (hs : s.Sound) (hm : s.Marked (index h)) (hdrop : s.dropHandle h = .ok s') :
    s'.Sound := by
  have hrefs := refs_dropHandle hdrop
  have hmods := modRefs_dropHandle hm hdrop
  obtain ⟨s1, hdel, rfl⟩ := dropHandle_eq_ok hdrop
  obtain ⟨⟨g, item⟩, hslot, -⟩ := hm
  have hindex : index g = index h := getHandleIndex_of_slot hslot
  have hfind := find_of_slot hslot
  unfold deleteApi at hdel
  rw [Components.get, hslot] at hdel
  obtain ⟨apiTrace, hdestroy, hdel⟩ := bind_eq_ok.mp hdel
  cases hdel
  -- what is destroyed belongs to the handle
  have hown : ∀ a ∈ HandleState.all.flatMap fun st => (item.states st).apiRefs,
      ∃ st, a ∈ s.refs (g, st) := by
    intro a ha
    obtain ⟨st, -, ha⟩ := mem_flatMap.mp ha
    exact ⟨st, by rwa [refs_of_find hfind]⟩
  have hrec : ∀ a ∈ HandleState.all.flatMap fun st => (item.states st).apiRefs,
      s.apiTrace.Recorded a := by
    intro a ha
    obtain ⟨st, ha⟩ := hown a ha
    exact hs.recorded _ a ha
  obtain ⟨free, hholds⟩ := hs.holds
  obtain ⟨hholds', hkeep⟩ := destroyAll_spec hholds (fun a ha => .inl (hrec a ha))
    (fun a ha b hb => key_eq_of_recorded (hrec a ha) (hrec b hb)) hdestroy
  have hmem : ∀ {i : ℕ} {a : Handle} {as : List Handle}, a ∈ (if i = index h then [] else as) →
      i ≠ index h ∧ a ∈ as := by
    intro i a as ha
    split_ifs at ha with hi
    · cases ha
    · exact ⟨hi, ha⟩
  refine ⟨hholds', fun v a ha => ?_, fun n a ha => ?_, fun u v a ha b hb => ?_,
    fun u n a ha b hb => ?_⟩
  · rw [hrefs] at ha
    obtain ⟨hv, ha⟩ := hmem ha
    refine (hkeep a fun c hc heq => hv ?_).mpr (hs.recorded v a ha)
    obtain ⟨st, hc'⟩ := hown c hc
    rw [← hindex]
    exact hs.owner v (g, st) a ha c hc'
      (key_eq_of_recorded (hs.recorded v a ha) (hrec c hc) heq.symm)
  · rw [hmods] at ha
    obtain ⟨hn, ha⟩ := hmem ha
    refine (hkeep a fun c hc heq => hn ?_).mpr (hs.recordedMod n a ha)
    obtain ⟨st, hc'⟩ := hown c hc
    rw [← hindex]
    exact (hs.ownerMod (g, st) n c hc' a ha
      (key_eq_of_recorded (hrec c hc) (hs.recordedMod n a ha) heq)).symm
  · rw [hrefs] at ha hb
    exact hs.owner u v a (hmem ha).2 b (hmem hb).2
  · rw [hrefs] at ha
    rw [hmods] at hb
    exact hs.ownerMod u n a (hmem ha).2 b (hmem hb).2

theorem swept (hs : s.Sound) (hswept : Swept s s') : s'.Sound := by
  obtain ⟨hactions, -⟩ := hswept
  induction hactions with
  | refl => exact hs
  | tail _ ha ih =>
    rcases ha.cases_drop with ⟨htrace, hrefs, hmods⟩ | ⟨h, hmarked, hdrop⟩
    · apply ih.fewer ⟨fun v => .inl (hrefs v), fun m => .inl (hmods m)⟩
      · rw [htrace]
        exact ih.holds
      · rw [htrace]
        exact fun a ha => ha
    · exact ih.dropHandle hmarked hdrop

theorem addApi (hs : s.Sound) (hrec : s.apiTrace.Recorded api)
    (howner : ∀ v, ∀ a ∈ s.refs v, key a = key api → index v.1 = index h)
    (hownerMod : ∀ m, ∀ a ∈ s.modRefs m, key a = key api → index m = index h) :
    (s.addApi h api st).Sound := by
  have hmem :
      ∀ v, ∀ a ∈ (s.addApi h api st).refs v, a ∈ s.refs v ∨ a = api ∧ index v.1 = index h := by
    intro v a ha
    rw [refs_addApi] at ha
    split_ifs at ha with hv
    · rw [mem_append, mem_singleton] at ha
      exact ha.imp_right fun heq => ⟨heq, hv.2.1⟩
    · exact .inl ha
  refine ⟨hs.holds, fun v a ha => ?_, hs.recordedMod, fun u v a ha b hb heq => ?_,
    fun u m a ha b hb heq => ?_⟩
  · rcases hmem v a ha with ha' | ⟨hapi, -⟩
    · exact hs.recorded v a ha'
    · rw [hapi]
      exact hrec
  · rcases hmem u a ha with ha' | ⟨hapi, hu⟩
    · rcases hmem v b hb with hb' | ⟨hbapi, hv⟩
      · exact hs.owner u v a ha' b hb' heq
      · rw [hv]
        exact howner u a ha' (hbapi ▸ heq)
    · rcases hmem v b hb with hb' | ⟨hbapi, hv⟩
      · rw [hu]
        exact (howner v b hb' (hapi ▸ heq.symm)).symm
      · rw [hu, hv]
  · rcases hmem u a ha with ha' | ⟨hapi, hu⟩
    · exact hs.ownerMod u m a ha' b hb heq
    · rw [hu]
      exact (hownerMod m b hb (hapi ▸ heq.symm)).symm

theorem forEachHandleAddApi (hs : s.Sound)
    (he : ∀ g ∈ s.targets toProcess, s.apiTrace.Recorded api ∧
      (∀ g' ∈ s.targets toProcess, index g' = index g) ∧
      (∀ v, ∀ a ∈ s.refs v, key a = key api → index v.1 = index g) ∧
      ∀ m, ∀ a ∈ s.modRefs m, key a = key api → index m = index g) :
    (s.forEachHandleAddApi toProcess api st).Sound := by
  induction toProcess generalizing s with
  | nil => exact hs
  | cons h toProcess ih =>
    cases hget : s.handles.get h with
    | none =>
      have htargets : s.targets (h :: toProcess) = s.targets toProcess :=
        filter_cons_of_neg (by simp [hget])
      have hsame : ∀ v, (s.addApi h api st).refs v = s.refs v := refs_addApi_of_get hget
      apply ih (hs.fewer ⟨fun v => .inl (hsame v), fun _ => .inl rfl⟩ hs.holds fun a ha => ha)
      rw [targets_addApi]
      rw [htargets] at he
      intro g hg
      simp only [hsame]
      exact he g hg
    | some item =>
      have htargets : s.targets (h :: toProcess) = h :: s.targets toProcess :=
        filter_cons_of_pos (by simp [hget])
      rw [htargets] at he
      obtain ⟨hrec, hall, howner, hownerMod⟩ := he h mem_cons_self
      apply ih (hs.addApi hrec howner hownerMod)
      rw [targets_addApi]
      intro g hg
      have hgh := hall g (mem_cons_of_mem h hg)
      obtain ⟨-, hall', howner', hownerMod'⟩ := he g (mem_cons_of_mem h hg)
      refine ⟨hrec, fun g' hg' => hall' g' (mem_cons_of_mem h hg'), fun v a ha heq => ?_,
        hownerMod'⟩
      -- what was attached just now belongs to the same index
      rw [refs_addApi] at ha
      split_ifs at ha with hv
      · rw [hv.2.1, hgh]
      · exact howner' v a ha heq

theorem setModRefs (hs : s.Sound) (he : ∀ m ∈ toProcess, s.apiTrace.Recorded api ∧
      ∀ v, ∀ a ∈ s.refs v, key a = key api → index v.1 = index m) :
    (s.setModRefs toProcess [api]).Sound := by
  refine ⟨hs.holds, hs.recorded, fun m a ha => ?_, hs.owner, fun u m a ha b hb heq => ?_⟩
  · rcases mem_modRefs_setModRefs ha with ha' | ⟨hm, hapi⟩
    · exact hs.recordedMod m a ha'
    · rw [hapi]
      exact (he m hm).1
  · rcases mem_modRefs_setModRefs hb with hb' | ⟨hm, hbapi⟩
    · exact hs.ownerMod u m a ha b hb' heq
    · exact (he m hm).2 u a ha (hbapi ▸ heq)

end Sound

theorem step_recorded (order : Order) (he : s.Owned e) (hs : s.Sound)
    (hremove : ∀ toRemove recursive, e ≠ .removeHandles toRemove recursive) :
    ∃ s' o, step order s e = .ok (s', o) ∧ (∃ free, s'.apiTrace.Holds free) ∧
      ∀ a, s.apiTrace.Recorded a → s'.apiTrace.Recorded a := by
  obtain ⟨free, hholds⟩ := hs.holds
  cases e with
  | createApiInfo =>
    obtain ⟨⟨apiTrace, h⟩, hadd, houtcome⟩ := hholds.add two_le_generationBits default 1
    refine ⟨{ s with apiTrace := apiTrace }, some h, ?_, ?_⟩
    · simp only [step, createApiInfo, hadd, ok_bind, pure_eq_ok]
    · cases houtcome with
      | refused hfull => exact ⟨⟨free, hholds⟩, fun a ha => ha⟩
      | added holds valid hindex dead contents =>
        refine ⟨⟨_, holds⟩, fun a ha => ?_⟩
        -- the entry taken was not live
        have hne : usual.getHandleIndex a ≠ usual.getHandleIndex h := by
          intro heq
          have hlive := ha.liveAt
          rw [heq, dead] at hlive
          cases hlive
        apply (recorded_congr _).mpr ha
        rw [contents, Function.update_of_ne hne]
  | setApiTrace a opCode trace =>
    obtain ⟨item, hget⟩ := isSome_iff_exists.mp he
    refine ⟨{ s with apiTrace := s.apiTrace.modify a (.setTrace opCode trace) }, none, ?_,
      ⟨free, hholds.modify⟩, fun a ha => recorded_modify.mpr ha⟩
    simp only [step, setApiTrace, getApiInfo, hget, ok_bind, pure_eq_ok]
  | setCreatedHandlesForApi a created =>
    refine ⟨_, _, rfl, ?_⟩
    unfold setCreatedHandlesForApi
    split
    · exact ⟨⟨free, hholds⟩, fun a ha => ha⟩
    · dsimp only
      exact ⟨⟨free, hholds.modify⟩, fun a ha => recorded_modify.mpr ha⟩
  | removeHandles toRemove recursive => exact absurd rfl (hremove toRemove recursive)
  | forEachHandleAddApi toProcess a st =>
    refine ⟨_, _, rfl, ?_⟩
    rw [apiTrace_forEachHandleAddApi]
    exact ⟨⟨free, hholds⟩, fun a ha => ha⟩
  | addHandleDependency handles parentHandle cs ps =>
    refine ⟨_, _, rfl, ?_⟩
    rw [(s.fewer_addHandleDependency handles parentHandle cs ps).2]
    exact ⟨⟨free, hholds⟩, fun a ha => ha⟩
  | createExtraHandlesForNextApi created => exact ⟨_, _, rfl, ⟨free, hholds⟩, fun a ha => ha⟩
  | addHandles toAdd => exact ⟨_, _, rfl, ⟨free, hholds⟩, fun a ha => ha⟩
  | forEachHandleAddModifyApi toProcess a => exact ⟨_, _, rfl, ⟨free, hholds⟩, fun a ha => ha⟩
  | forEachHandleClearModifyApi toProcess => exact ⟨_, _, rfl, ⟨free, hholds⟩, fun a ha => ha⟩

theorem step_sound (order : Order) (hs : s.Sound) (he : s.Owned e) :
    ∃ s' o, step order s e = .ok (s', o) ∧ s'.Sound := by
  by_cases hremove : ∀ toRemove recursive, e ≠ .removeHandles toRemove recursive
  · obtain ⟨s', o, hstep, hholds, hkeep⟩ := step_recorded order he hs hremove
    refine ⟨s', o, hstep, ?_⟩
    cases e with
    | forEachHandleAddApi toProcess a st =>
      cases hstep
      apply hs.forEachHandleAddApi
      intro g hg
      obtain ⟨hrec, hall, hcalls, hmods⟩ := he (index g) (mem_map_of_mem hg)
      exact ⟨hrec, fun g' hg' => hall (index g') (mem_map_of_mem hg'),
        fun v b hb heq => hcalls _ (mem_calls hb) heq,
        fun m b hb heq => hmods _ (mem_map_of_mem (mem_modCalls hb)) heq⟩
    | forEachHandleAddModifyApi toProcess a =>
      cases hstep
      apply hs.setModRefs
      intro m hm
      obtain ⟨hrec, hcalls⟩ := he (index m) (mem_map_of_mem hm)
      exact ⟨hrec, fun v b hb heq => hcalls _ (mem_calls hb) heq⟩
    | _ => exact hs.fewer (step_fewer (by simp [Event.Attaches]) hstep) hholds hkeep
  · push Not at hremove
    obtain ⟨toRemove, recursive, rfl⟩ := hremove
    obtain ⟨s', hs'⟩ := s.removeHandles_isOk order toRemove recursive
    refine ⟨s', none, ?_, hs.swept (removeHandles_swept hs')⟩
    simp only [step, hs', ok_bind, pure_eq_ok]

theorem sound_new : new.Sound := by
  refine ⟨⟨_, .new two_le_generationBits 0⟩, ?_, ?_, ?_, ?_⟩ <;> simp [refs_new, modRefs_new]

end Reconstruction

open Reconstruction

/-- After every run in which each call is attached once, the calls that `save` writes are
different. -/
theorem run_trace_nodup (order : Order) (events : List Event)
    (hmeets : Meets (step order) AttachedOnce .new events) {s : Reconstruction}
    (hrun : (run (step order) .new events).2 = .ok s) {apis : List (List Handle)}
    (hapis : s.uniqApiRefsByTopoOrder order = .ok apis) : (apis.flatten.map key).Nodup := by
  have honce : (run (step order) new events).2.Ensures Once fun _ => True := by
    refine run_invariant (fun s e hs he => ?_) events new once_new hmeets
    cases hstep : step order s e with
    | error f => trivial
    | ok p => exact hs.step he hstep
  exact (honce.of_ok hrun).nodup_keys hapis

/-- Two handles with a call each, and a call that modifies both. -/
theorem run_trace_nodup_two_handles : Meets (step .plain) AttachedOnce .new
        [.addHandles [1, 2], .createApiInfo, .forEachHandleAddApi [1] 0x1000100000000 .created,
          .createApiInfo, .forEachHandleAddApi [2] 0x1000100000001 .created,
          .createApiInfo, .forEachHandleAddModifyApi [1, 2] 0x1000100000002] ∧
      ∃ s, (run (step .plain) .new
          [.addHandles [1, 2], .createApiInfo, .forEachHandleAddApi [1] 0x1000100000000 .created,
            .createApiInfo, .forEachHandleAddApi [2] 0x1000100000001 .created,
            .createApiInfo, .forEachHandleAddModifyApi [1, 2] 0x1000100000002]).2 = .ok s ∧
        s.uniqApiRefsByTopoOrder .plain =
          .ok [[0x1000100000000, 0x1000100000001], [0x1000100000002]] ∧
        (List.flatten [[0x1000100000000, 0x1000100000001], [0x1000100000002]] |>.map
          key).Nodup := by
  set events : List Event :=
    [.addHandles [1, 2], .createApiInfo, .forEachHandleAddApi [1] 0x1000100000000 .created,
      .createApiInfo, .forEachHandleAddApi [2] 0x1000100000001 .created,
      .createApiInfo, .forEachHandleAddModifyApi [1, 2] 0x1000100000002] with hevents
  have hmeets : Meets (step .plain) AttachedOnce .new events := by decide +kernel
  have heval : ((run (step .plain) .new events).2 >>= fun s => s.uniqApiRefsByTopoOrder .plain) =
      .ok [[0x1000100000000, 0x1000100000001], [0x1000100000002]] := by decide +kernel
  obtain ⟨s, hrun, hapis⟩ := bind_eq_ok.mp heval
  exact ⟨hmeets, s, hrun, hapis, run_trace_nodup .plain events hmeets hrun hapis⟩

/-- A call that created two handles is written twice. -/
theorem shared_call_is_written_twice :
    ∃ s, (run (step .plain) .new [.addHandles [1, 2], .createApiInfo,
        .forEachHandleAddApi [1, 2] 0x1000100000000 .created]).2 = .ok s ∧
      ∃ apis, s.uniqApiRefsByTopoOrder .plain = .ok apis ∧ ¬ (apis.flatten.map key).Nodup := by
  set events : List Event := [.addHandles [1, 2], .createApiInfo,
    .forEachHandleAddApi [1, 2] 0x1000100000000 .created] with hevents
  have heval : ((run (step .plain) .new events).2 >>= fun s => s.uniqApiRefsByTopoOrder .plain) =
      .ok [[0x1000100000000, 0x1000100000000], []] := by decide +kernel
  obtain ⟨s, hrun, hapis⟩ := bind_eq_ok.mp heval
  exact ⟨s, hrun, _, hapis, by decide +kernel⟩

/-- If each call is attached to one handle, every reference names a call that exists. If calls
name live handles by the handles they were added under, parents and children of live handles
agree. -/
theorem run_references_sound (order : Order) (events : List Event) :
    (Meets (step order) Owned .new events → ∃ s, (run (step order) .new events).2 = .ok s ∧
        (∀ v, s.Live v → ∀ a ∈ (s.entry v.1 v.2).apiRefs, s.apiTrace.Recorded a) ∧
        ∀ p ∈ s.modifications.lives, ∀ a ∈ p.2.apiRefs, s.apiTrace.Recorded a) ∧
    (Meets (step order) Unambiguous .new events → ∃ s, (run (step order) .new events).2 = .ok s ∧
        ∀ u v, s.Live u → s.Live v →
          (u ∈ (s.entry v.1 v.2).parentHandles ↔ v ∈ (s.entry u.1 u.2).childHandles)) := by
  constructor
  · intro hmeets
    obtain ⟨s, hrun, hs⟩ := run_ok_of_meets (fun s e hs he => step_sound order hs he) events
      sound_new hmeets
    refine ⟨s, hrun, fun v hv a ha => ?_, fun p hp a ha => ?_⟩
    · obtain ⟨item, hfind⟩ := isSome_iff_exists.mp hv
      rw [entry_of_find hfind] at ha
      exact hs.recorded v a (by rwa [refs_of_find hfind])
    · apply hs.recordedMod p.1 a
      rwa [modRefs, mem_lives.mp hp]
  · intro hmeets
    obtain ⟨s, hrun, hl⟩ := run_linked order events hmeets
    refine ⟨s, hrun, fun u v hu hv => ?_⟩
    obtain ⟨a, ha⟩ := isSome_iff_exists.mp hu
    obtain ⟨b, hb⟩ := isSome_iff_exists.mp hv
    rw [entry_of_find ha, entry_of_find hb]
    exact hl.standing u v a b ha (hl.settled _ a ha) hb (hl.settled _ b hb)

/-- Two handles with a call each, one created from the other; the second is removed. -/
theorem run_references_sound_removed_child : (Meets (step .plain) Owned .new
        [.addHandles [1, 2], .createApiInfo, .forEachHandleAddApi [1] 0x1000100000000 .created,
          .createApiInfo, .forEachHandleAddApi [2] 0x1000100000001 .created,
          .addHandleDependency [2] 1 .created .created, .removeHandles [2] true] ∧
      ∃ s, (run (step .plain) .new
        [.addHandles [1, 2], .createApiInfo, .forEachHandleAddApi [1] 0x1000100000000 .created,
          .createApiInfo, .forEachHandleAddApi [2] 0x1000100000001 .created,
          .addHandleDependency [2] 1 .created .created, .removeHandles [2] true]).2 = .ok s ∧
        (∀ v, s.Live v → ∀ a ∈ (s.entry v.1 v.2).apiRefs, s.apiTrace.Recorded a) ∧
        ∀ p ∈ s.modifications.lives, ∀ a ∈ p.2.apiRefs, s.apiTrace.Recorded a) ∧
    (Meets (step .plain) Unambiguous .new
        [.addHandles [1, 2], .createApiInfo, .forEachHandleAddApi [1] 0x1000100000000 .created,
          .createApiInfo, .forEachHandleAddApi [2] 0x1000100000001 .created,
          .addHandleDependency [2] 1 .created .created, .removeHandles [2] true] ∧
      ∃ s, (run (step .plain) .new
        [.addHandles [1, 2], .createApiInfo, .forEachHandleAddApi [1] 0x1000100000000 .created,
          .createApiInfo, .forEachHandleAddApi [2] 0x1000100000001 .created,
          .addHandleDependency [2] 1 .created .created, .removeHandles [2] true]).2 = .ok s ∧
        ∀ u v, s.Live u → s.Live v →
          (u ∈ (s.entry v.1 v.2).parentHandles ↔ v ∈ (s.entry u.1 u.2).childHandles)) := by
  have hsound := run_references_sound .plain
    [.addHandles [1, 2], .createApiInfo, .forEachHandleAddApi [1] 0x1000100000000 .created,
      .createApiInfo, .forEachHandleAddApi [2] 0x1000100000001 .created,
      .addHandleDependency [2] 1 .created .created, .removeHandles [2] true]
  refine ⟨⟨?_, hsound.1 ?_⟩, ?_, hsound.2 ?_⟩
  all_goals decide +kernel

/-- A call that created two handles is lost when one of them is removed, and the other still
refers to it. -/
theorem shared_call_is_lost : ∃ s, (run (step .plain) .new [.addHandles [1, 2], .createApiInfo,
        .forEachHandleAddApi [1, 2] 0x1000100000000 .created, .removeHandles [1] true]).2 = .ok s ∧
      s.Live (2, .created) ∧ 0x1000100000000 ∈ (s.entry 2 .created).apiRefs ∧
      ¬ s.apiTrace.Recorded 0x1000100000000 ∧ s.apiTrace.get 0x1000100000000 = none := by
  set events : List Event := [.addHandles [1, 2], .createApiInfo,
    .forEachHandleAddApi [1, 2] 0x1000100000000 .created, .removeHandles [1] true] with hevents
  have heval : (run (step .plain) .new events).2.map (fun s => ((s.handles.find 2).isSome,
      (s.entry 2 .created).apiRefs, (s.apiTrace.get 0x1000100000000).isSome)) =
      .ok (true, [0x1000100000000], false) := by decide +kernel
  obtain ⟨s, hrun, hstate⟩ := map_eq_ok.mp heval
  obtain ⟨hlive, hstate⟩ := Prod.mk.inj hstate
  obtain ⟨hrefs, hget⟩ := Prod.mk.inj hstate
  have hnone : s.apiTrace.get 0x1000100000000 = none := by simpa using hget
  refine ⟨s, hrun, hlive, by rw [hrefs]; exact mem_singleton_self _, fun hrec => ?_, hnone⟩
  have hsome := hrec.isSome_get
  rw [hget] at hsome
  cases hsome

end AndroidEmu.Vulkan
