import AndroidEmu.Vulkan.Removal

/-!
# The order of a saved reconstruction

The counters of `save` come from a vector of parents and are lowered for a set of children. The two
agree as long as every dependency is recorded once and between live handles: a lookup finds a slot
by the index of a handle alone. A new handle must not be one that links are still recorded for.
-/

namespace AndroidEmu.Vulkan

open CS EntityManager Checked List Option Components HandleWithStateReconstruction Layers

variable {u v : HandleWithState} {item' : HandleWithStateReconstruction}

variable {layers : List (List HandleWithState)} {toAdd handles : List Handle} {st cs : HandleState}

namespace Reconstruction

variable {order : Order} {s s' : Reconstruction} {h g : Handle}

/-! ### Links -/

/-- The handle of the pair is recorded. -/
def Live (s : Reconstruction) (v : HandleWithState) : Prop := (s.handles.find v.1).isSome = true

instance (s : Reconstruction) (v : HandleWithState) : Decidable (s.Live v) :=
  inferInstanceAs (Decidable (_ = true))

/-- The pair `u` is recorded as a parent of the live pair `v`. -/
def ParentOf (s : Reconstruction) (u v : HandleWithState) : Prop := u ∈ s.parents v

/-- The pair `u` is an ancestor of the live pair `v`, by recorded links. -/
def Ancestor (s : Reconstruction) : HandleWithState → HandleWithState → Prop :=
  Relation.TransGen s.ParentOf

/-- No pair is its own ancestor. -/
def Acyclic (s : Reconstruction) : Prop := ∀ v, ¬ s.Ancestor v v

/-- Something recorded of a live handle names this one. -/
def Mentions (s : Reconstruction) (h : Handle) : Prop :=
  ∃ p ∈ s.handles.lives, ∃ st : HandleState,
    ∃ v ∈ (p.2.states st).parentHandles ++ (p.2.states st).childHandles.elems, v.1 = h

instance (s : Reconstruction) (h : Handle) : Decidable (s.Mentions h) := by
  unfold Mentions
  infer_instance

/-- Handles that a call finds are those it asks for, and handles that it adds are new to the
recorded links. -/
def Unambiguous (s : Reconstruction) : Event → Prop
  | .addHandles toAdd => ∀ h ∈ toAdd, ¬ s.Mentions h
  | .addHandleDependency handles parentHandle _ _ =>
    parentHandle ≠ 0 → (s.handles.get parentHandle).isSome = true →
      (s.handles.find parentHandle).isSome = true ∧
        ∀ h ∈ handles, (s.handles.get h).isSome = true → (s.handles.find h).isSome = true
  | .setApiTrace api _ _ => (s.apiTrace.get api).isSome = true
  | _ => True

/-- A call records no dependency that is recorded already, and no more than the counters can
hold. -/
def Single (s : Reconstruction) : Event → Prop
  | .addHandles toAdd => s.handles.lives.length + toAdd.length ≤ 2 ^ 30
  | .addHandleDependency handles parentHandle childState parentState =>
    parentHandle ≠ 0 → (s.handles.get parentHandle).isSome = true →
      (handles.filter fun h => (s.handles.get h).isSome).Nodup ∧
        ∀ h ∈ handles, (parentHandle, parentState) ∉ s.parents (h, childState) ∧
          (s.parents (h, childState)).length + 1 < 2 ^ 31
  | _ => True

-- The handles of a call are searched for in its list; there are too many handles to try them all.
instance (s : Reconstruction) : DecidablePred s.Unambiguous := by
  intro e
  cases e with
  | addHandles toAdd => exact toAdd.decidableBAll fun h => ¬ s.Mentions h
  | addHandleDependency handles parentHandle childState parentState =>
    have := handles.decidableBAll fun h =>
      (s.handles.get h).isSome = true → (s.handles.find h).isSome = true
    exact inferInstanceAs (Decidable (_ → _ → _ ∧ _))
  | setApiTrace api opCode trace => exact inferInstanceAs (Decidable (_ = true))
  | _ => exact instDecidableTrue

instance (s : Reconstruction) : DecidablePred s.Single := by
  intro e
  cases e with
  | addHandles toAdd => exact inferInstanceAs (Decidable (_ ≤ _))
  | addHandleDependency handles parentHandle childState parentState =>
    have := handles.decidableBAll fun h =>
      (parentHandle, parentState) ∉ s.parents (h, childState) ∧
        (s.parents (h, childState)).length + 1 < 2 ^ 31
    exact inferInstanceAs (Decidable (_ → _ → _ ∧ _))
  | _ => exact instDecidableTrue

/-- Parents and children agree among the handles that stand. -/
def StandingLinked (s : Reconstruction) : Prop :=
  ∀ (u v : HandleWithState) (a b : HandleWithStateReconstruction),
    s.handles.find u.1 = some a → a.destroying = false →
    s.handles.find v.1 = some b → b.destroying = false →
    (u ∈ (b.states v.2).parentHandles ↔ v ∈ (a.states u.2).childHandles)

/-- Between two calls: nothing is being removed, and parents and children agree. -/
structure Linked (s : Reconstruction) : Prop where
  settled : ∀ h item, s.handles.find h = some item → item.destroying = false
  standing : s.StandingLinked

/-- No parent is recorded twice, and the counters have room. -/
structure Counted (s : Reconstruction) : Prop where
  nodup : ∀ v, (s.parents v).Nodup
  length_lt : ∀ v, (s.parents v).length < 2 ^ 31
  lives_le : s.handles.lives.length ≤ 2 ^ 30

/-! ### What a removal keeps -/

/-- What stands afterwards stood before, with the same calls and links, but for links to what
stands no more. -/
def Kept (s s' : Reconstruction) : Prop :=
  ∀ (g : Handle) (item' : HandleWithStateReconstruction), s'.handles.find g = some item' →
    item'.destroying = false →
    ∃ item, s.handles.find g = some item ∧ item.destroying = false ∧
      ∀ st, (item'.states st).parentHandles = (item.states st).parentHandles ∧ ∀ v, s'.Stands v.1 →
          (v ∈ (item'.states st).childHandles ↔ v ∈ (item.states st).childHandles)

variable {f : HandleWithStateReconstruction → HandleWithStateReconstruction}

theorem Kept.of_onHandle (hfind : (s.onHandle h f).handles.find g = some item')
    (hfree : item'.destroying = false)
    (hf : ∀ item, s.handles.find g = some item → (f item).destroying = false →
      item.destroying = false ∧ ∀ st,
        ((f item).states st).parentHandles = (item.states st).parentHandles ∧
        ∀ v, (s.onHandle h f).Stands v.1 →
          (v ∈ ((f item).states st).childHandles ↔ v ∈ (item.states st).childHandles)) :
    ∃ item, s.handles.find g = some item ∧ item.destroying = false ∧
      ∀ st, (item'.states st).parentHandles = (item.states st).parentHandles ∧
        ∀ v, (s.onHandle h f).Stands v.1 →
          (v ∈ (item'.states st).childHandles ↔ v ∈ (item.states st).childHandles) := by
  rw [find_onHandle] at hfind
  split_ifs at hfind
  · obtain ⟨item, hitem, rfl⟩ := map_eq_some_iff.mp hfind
    exact ⟨item, hitem, hf item hitem hfree⟩
  · exact ⟨item', hfind, hfree, fun st => ⟨rfl, fun v _ => Iff.rfl⟩⟩

theorem Action.kept (ha : Action s s') : Kept s s' := by
  intro g item' hfind hfree
  cases ha with
  | mark hget _ =>
    exact Kept.of_onHandle hfind hfree fun item _ hdest => by cases hdest
  | delay h =>
    exact Kept.of_onHandle hfind hfree fun item _ hdest =>
      ⟨hdest, fun st => ⟨rfl, fun v _ => Iff.rfl⟩⟩
  | eraseChild parent child hgone =>
    refine Kept.of_onHandle hfind hfree fun item _ hdest => ⟨hdest, fun st => ?_⟩
    rw [onState_states]
    split_ifs with hst
    · subst hst
      refine ⟨rfl, fun v hv => ?_⟩
      -- the child that is forgotten does not stand
      have hne : v ≠ child := by
        rintro rfl
        exact hgone (stands_of_onHandle hv fun _ hd => hd)
      simp [hne]
    · exact ⟨rfl, fun v _ => Iff.rfl⟩
  | clearLinks v hmarked =>
    -- the handle whose links are cleared is marked
    rw [Reconstruction.clearLinks, find_onHandle] at hfind
    split_ifs at hfind with hindex
    · obtain ⟨item, hitem, rfl⟩ := map_eq_some_iff.mp hfind
      rw [← hindex] at hmarked
      exact absurd ⟨item, hitem, hfree⟩ (not_stands_of_marked hmarked)
    · exact ⟨item', hfind, hfree, fun st => ⟨rfl, fun v _ => Iff.rfl⟩⟩
  | drop hmarked hdrop =>
    rw [find_dropHandle hdrop] at hfind
    split_ifs at hfind
    exact ⟨item', hfind, hfree, fun st => ⟨rfl, fun v _ => Iff.rfl⟩⟩

theorem Swept.kept (hs : Swept s s') : Kept s s' := by
  obtain ⟨hactions, -⟩ := hs
  induction hactions with
  | refl => exact fun g item hfind hfree =>
      ⟨item, hfind, hfree, fun st => ⟨rfl, fun v _ => Iff.rfl⟩⟩
  | tail _ ha ih =>
    intro g item' hfind hfree
    obtain ⟨item1, hfind1, hfree1, hlinks1⟩ := ha.kept g item' hfind hfree
    obtain ⟨item, hfind0, hfree0, hlinks⟩ := ih g item1 hfind1 hfree1
    refine ⟨item, hfind0, hfree0, fun st => ⟨(hlinks1 st).1.trans (hlinks st).1, fun v hv => ?_⟩⟩
    rw [(hlinks1 st).2 v hv, (hlinks st).2 v (ha.stands hv)]

theorem settled_of_not_marked (hm : ∀ i, ¬ s.Marked i) (h : Handle)
    (item : HandleWithStateReconstruction) (hfind : s.handles.find h = some item) :
    item.destroying = false := by
  by_contra hdest
  exact hm _ ⟨(h, item), find_eq_some.mp hfind, by simpa using hdest⟩

theorem Linked.not_marked (hl : s.Linked) (i : ℕ) : ¬ s.Marked i := by
  rintro ⟨⟨h, item⟩, hslot, hdest⟩
  have hfree := hl.settled h item (find_of_slot hslot)
  rw [hfree] at hdest
  cases hdest

theorem Linked.swept (hl : s.Linked) (hs : Swept s s') : s'.Linked := by
  have hsettled := settled_of_not_marked fun i hi => hl.not_marked i ((hs.marked i).mp hi)
  refine ⟨hsettled, fun u v a b ha hfreea hb hfreeb => ?_⟩
  obtain ⟨a0, ha0, hfreea0, hlinksa⟩ := hs.kept u.1 a ha hfreea
  obtain ⟨b0, hb0, hfreeb0, hlinksb⟩ := hs.kept v.1 b hb hfreeb
  rw [(hlinksb v.2).1, (hlinksa u.2).2 v ⟨b, hb, hfreeb⟩]
  exact hl.standing u v a0 b0 ha0 hfreea0 hb0 hfreeb0

variable {v : HandleWithState} {item : HandleWithStateReconstruction}

theorem parents_of_find
    (hfind : s.handles.find v.1 = some item) : s.parents v = (item.states v.2).parentHandles := by
  rw [parents, hfind]

theorem parents_of_kept (hk : Kept s s') (hsettled : ∀ h item, s'.handles.find h = some item →
    item.destroying = false) (v : HandleWithState) :
    s'.parents v = [] ∨ s'.parents v = s.parents v := by
  cases hfind : s'.handles.find v.1 with
  | none =>
    left
    rw [parents, hfind]
  | some item' =>
    right
    obtain ⟨item, hfind0, -, hlinks⟩ := hk v.1 item' hfind (hsettled v.1 item' hfind)
    rw [parents_of_find hfind, parents_of_find hfind0, (hlinks v.2).1]

theorem length_lives_le (hsub : ∀ h, (s'.handles.find h).isSome → (s.handles.find h).isSome) :
    s'.handles.lives.length ≤ s.handles.lives.length := by
  rw [← length_map Prod.fst, ← s.handles.lives.length_map Prod.fst]
  apply (s'.handles.nodup_lives.subperm _).length_le
  intro h hh
  obtain ⟨⟨h, item⟩, hmem, rfl⟩ := mem_map.mp hh
  obtain ⟨item0, hfind0⟩ := isSome_iff_exists.mp
    (hsub h (by rw [mem_lives.mp hmem]; rfl))
  exact mem_map.mpr ⟨(h, item0), mem_lives.mpr hfind0, rfl⟩

theorem Counted.of_parents (hc : s.Counted)
    (hparents : ∀ v, s'.parents v = [] ∨ s'.parents v = s.parents v)
    (hlives : s'.handles.lives.length ≤ 2 ^ 30) : s'.Counted := by
  refine ⟨fun v => ?_, fun v => ?_, hlives⟩
  · rcases hparents v with hv | hv
    · rw [hv]
      exact nodup_nil
    · rw [hv]
      exact hc.nodup v
  · rcases hparents v with hv | hv
    · rw [hv]
      decide
    · rw [hv]
      exact hc.length_lt v

theorem Counted.swept (hl : s.Linked) (hc : s.Counted) (hs : Swept s s') : s'.Counted := by
  have hl' := hl.swept hs
  apply hc.of_parents (parents_of_kept hs.kept hl'.settled)
  refine (length_lives_le fun h hh => ?_).trans hc.lives_le
  obtain ⟨item', hfind⟩ := isSome_iff_exists.mp hh
  obtain ⟨item, hfind0, -⟩ := hs.kept h item' hfind (hl'.settled h item' hfind)
  rw [hfind0]
  rfl

/-! ### New handles -/

theorem mentions_of_parent (hfind : s.handles.find g = some item)
    (hu : u ∈ (item.states st).parentHandles) : s.Mentions u.1 :=
  ⟨(g, item), mem_lives.mpr hfind, st, u, mem_append_left _ hu, rfl⟩

theorem mentions_of_child (hfind : s.handles.find g = some item)
    (hu : u ∈ (item.states st).childHandles) : s.Mentions u.1 :=
  ⟨(g, item), mem_lives.mpr hfind, st, u, mem_append_right _ hu, rfl⟩

def addHandle (s : Reconstruction) (h : Handle) : Reconstruction :=
  { s with handles := s.handles.add h .new }

theorem find_addHandle (s : Reconstruction) (h g : Handle) :
    (s.addHandle h).handles.find g = if g = h then some .new
      else if index g = index h then none else s.handles.find g :=
  find_add ..

theorem find_addHandle_cases (hfind : (s.addHandle h).handles.find g = some item) :
    g = h ∧ item = .new ∨ g ≠ h ∧ s.handles.find g = some item := by
  rw [find_addHandle] at hfind
  split_ifs at hfind with hgh
  · exact .inl ⟨hgh, (some.inj hfind).symm⟩
  · exact .inr ⟨hgh, hfind⟩

theorem mentions_of_addHandle (hm : (s.addHandle h).Mentions g) : s.Mentions g := by
  obtain ⟨⟨k, item⟩, hmem, st, v, hv, rfl⟩ := hm
  rcases find_addHandle_cases (mem_lives.mp hmem) with ⟨-, rfl⟩ | ⟨-, hfind⟩
  · simp [HandleWithStateReconstruction.new, HandleReconstruction.new, UnorderedSet.empty] at hv
  · exact ⟨(k, item), mem_lives.mpr hfind, st, v, hv, rfl⟩

theorem Linked.addHandle (hl : s.Linked) (hnew : ¬ s.Mentions h) : (s.addHandle h).Linked := by
  constructor
  · intro g item hfind
    rcases find_addHandle_cases hfind with ⟨-, rfl⟩ | ⟨-, hfind⟩
    · rfl
    · exact hl.settled g item hfind
  · intro u v a b ha hfreea hb hfreeb
    rcases find_addHandle_cases ha with ⟨hu, rfl⟩ | ⟨hu, ha⟩
    · -- the new handle has no children, and nothing names it as a parent
      refine iff_of_false (fun hparent => ?_) (UnorderedSet.not_mem_empty v)
      rcases find_addHandle_cases hb with ⟨-, rfl⟩ | ⟨-, hb⟩
      · cases hparent
      · exact hnew (hu ▸ mentions_of_parent hb hparent)
    · rcases find_addHandle_cases hb with ⟨hv, rfl⟩ | ⟨-, hb⟩
      · exact iff_of_false not_mem_nil fun hchild => hnew (hv ▸ mentions_of_child ha hchild)
      · exact hl.standing u v a b ha hfreea hb hfreeb

theorem Linked.addHandles (hl : s.Linked)
    (hnew : ∀ h ∈ toAdd, ¬ s.Mentions h) : (s.addHandles toAdd).Linked := by
  induction toAdd generalizing s with
  | nil => exact hl
  | cons h toAdd ih =>
    apply ih (hl.addHandle (hnew h mem_cons_self))
    exact fun g hg hm => hnew g (mem_cons_of_mem h hg) (mentions_of_addHandle hm)

theorem parents_addHandle (s : Reconstruction) (h : Handle) (v : HandleWithState) :
    (s.addHandle h).parents v = [] ∨ (s.addHandle h).parents v = s.parents v := by
  cases hfind : (s.addHandle h).handles.find v.1 with
  | none =>
    left
    rw [parents, hfind]
  | some item =>
    rcases find_addHandle_cases hfind with ⟨-, rfl⟩ | ⟨-, hfind0⟩
    · left
      rw [parents_of_find hfind]
      rfl
    · right
      rw [parents_of_find hfind, parents_of_find hfind0]

theorem length_lives_addHandle (s : Reconstruction) (h : Handle) :
    (s.addHandle h).handles.lives.length ≤ s.handles.lives.length + 1 := by
  rw [← length_map Prod.fst, ← s.handles.lives.length_map Prod.fst, ← length_cons (a := h)]
  apply ((s.addHandle h).handles.nodup_lives.subperm _).length_le
  intro g hg
  obtain ⟨⟨g, item⟩, hmem, rfl⟩ := mem_map.mp hg
  rcases find_addHandle_cases (mem_lives.mp hmem) with ⟨rfl, -⟩ | ⟨-, hfind⟩
  · exact mem_cons_self
  · exact mem_cons_of_mem _
      (mem_map.mpr ⟨(g, item), mem_lives.mpr hfind, rfl⟩)

theorem Counted.addHandles (hc : s.Counted)
    (hroom : s.handles.lives.length + toAdd.length ≤ 2 ^ 30) : (s.addHandles toAdd).Counted := by
  induction toAdd generalizing s with
  | nil => exact hc
  | cons h toAdd ih =>
    rw [length_cons] at hroom
    have hlen := length_lives_addHandle s h
    exact ih (hc.of_parents (parents_addHandle s h) (by omega)) (by omega)

/-! ### New dependencies -/

theorem find_onHandle_of_find (hlive : (s.handles.find h).isSome = true) (g : Handle) :
    (s.onHandle h f).handles.find g =
      if g = h then (s.handles.find g).map f else s.handles.find g := by
  obtain ⟨d, hd⟩ := isSome_iff_exists.mp hlive
  rw [find_onHandle]
  by_cases hgh : g = h
  · rw [if_pos (congrArg _ hgh), if_pos hgh]
  rw [if_neg hgh]
  split_ifs with hindex
  · -- another handle with the index is not live
    cases hfind : s.handles.find g with
    | none => rfl
    | some d' => exact absurd (eq_of_find hfind hd hindex) hgh
  · rfl

theorem isSome_find_onHandle
    (g : Handle) : ((s.onHandle h f).handles.find g).isSome = (s.handles.find g).isSome := by
  rw [find_onHandle]
  split_ifs
  · rw [isSome_map]
  · rfl

theorem isSome_get_onHandle
    (g : Handle) : ((s.onHandle h f).handles.get g).isSome = (s.handles.get g).isSome := by
  unfold Components.get onHandle
  rw [slot_modify, isSome_map, isSome_map]
  by_cases hindex : Layout.usual.getHandleIndex g = Layout.usual.getHandleIndex h
  · rw [hindex, Function.update_self, isSome_map]
  · rw [Function.update_of_ne hindex]

variable {child parent : HandleWithState}

section

variable (hp : (s.handles.find parent.1).isSome = true)

include hp

section

variable (hc : (s.handles.find child.1).isSome = true)

include hc

theorem find_link
    (hfind : ((s.insertChild parent child).pushParent child parent).handles.find g = some item') :
    ∃ item, s.handles.find g = some item ∧ item'.destroying = item.destroying ∧ ∀ st,
      (item'.states st).parentHandles = (item.states st).parentHandles ++
        (if (g, st) = child then [parent] else []) ∧
      ∀ v, v ∈ (item'.states st).childHandles ↔
        v ∈ (item.states st).childHandles ∨ (g, st) = parent ∧ v = child := by
  have hc' : ((s.insertChild parent child).handles.find child.1).isSome = true := by
    rw [insertChild, isSome_find_onHandle, hc]
  rw [pushParent, find_onHandle_of_find hc', insertChild, find_onHandle_of_find hp] at hfind
  -- the entry of the parent first, then that of the child
  obtain ⟨item1, hitem1, hdest1, hstates1⟩ : ∃ item1, (if g = parent.1 then
      (s.handles.find g).map fun item => item.onState parent.2 fun r =>
        { r with childHandles := r.childHandles.insert child } else s.handles.find g) = some item1 ∧
      item'.destroying = item1.destroying ∧ ∀ st, (item'.states st).parentHandles =
        (item1.states st).parentHandles ++ (if (g, st) = child then [parent] else []) ∧
        (item'.states st).childHandles = (item1.states st).childHandles := by
    by_cases hg : g = child.1
    · rw [if_pos hg] at hfind
      obtain ⟨item1, hitem1, rfl⟩ := map_eq_some_iff.mp hfind
      refine ⟨item1, hitem1, rfl, fun st => ?_⟩
      rw [onState_states]
      by_cases hst : st = child.2
      · simp [hg, hst]
      · have hne : (child.1, st) ≠ child := fun heq => hst (congrArg Prod.snd heq)
        simp [hg, hst, hne]
    · rw [if_neg hg] at hfind
      have hne : ∀ st, (g, st) ≠ child := fun st heq => hg (congrArg Prod.fst heq)
      exact ⟨item', hfind, rfl, fun st => by simp [hne]⟩
  have hsets : ∃ item, s.handles.find g = some item ∧ item1.destroying = item.destroying ∧ ∀ st,
      (item1.states st).parentHandles = (item.states st).parentHandles ∧
      ∀ v, v ∈ (item1.states st).childHandles ↔
        v ∈ (item.states st).childHandles ∨ (g, st) = parent ∧ v = child := by
    by_cases hg : g = parent.1
    · rw [if_pos hg] at hitem1
      obtain ⟨item, hitem, rfl⟩ := map_eq_some_iff.mp hitem1
      refine ⟨item, hitem, rfl, fun st => ?_⟩
      rw [onState_states]
      by_cases hst : st = parent.2
      · have heq : (g, st) = parent := Prod.ext hg hst
        rw [if_pos hst, ← hst]
        refine ⟨rfl, fun v => ?_⟩
        simp [heq, or_comm]
      · have hne : (g, st) ≠ parent := fun heq => hst (congrArg Prod.snd heq)
        simp [hst, hne]
    · rw [if_neg hg] at hitem1
      have hne : ∀ st, (g, st) ≠ parent := fun st heq => hg (congrArg Prod.fst heq)
      exact ⟨item1, hitem1, rfl, fun st => by simp [hne]⟩
  obtain ⟨item, hitem, hdest, hstates⟩ := hsets
  refine ⟨item, hitem, hdest1.trans hdest, fun st => ⟨?_, fun v => ?_⟩⟩
  · rw [(hstates1 st).1, (hstates st).1]
  · rw [(hstates1 st).2, (hstates st).2]

theorem Linked.link (hl : s.Linked) :
    ((s.insertChild parent child).pushParent child parent).Linked := by
  constructor
  · intro g item hfind
    obtain ⟨item0, hfind0, hdest, -⟩ := find_link hp hc hfind
    rw [hdest]
    exact hl.settled g item0 hfind0
  · intro u v a b ha hfreea hb hfreeb
    obtain ⟨a0, ha0, hdesta, hstatesa⟩ := find_link hp hc ha
    obtain ⟨b0, hb0, hdestb, hstatesb⟩ := find_link hp hc hb
    have hold := hl.standing u v a0 b0 ha0 (hdesta ▸ hfreea) hb0 (hdestb ▸ hfreeb)
    rw [(hstatesb v.2).1, (hstatesa u.2).2, mem_append, hold]
    by_cases hv : v = child
    · simp [hv]
    · simp [hv]

theorem parents_link (v : HandleWithState) :
    ((s.insertChild parent child).pushParent child parent).parents v =
      s.parents v ++ if v = child then [parent] else [] := by
  cases hfind : ((s.insertChild parent child).pushParent child parent).handles.find v.1 with
  | none =>
    have hnone : s.handles.find v.1 = none := by
      rw [← isNone_iff_eq_none, ← not_isSome, Bool.not_eq_true']
      rw [← isSome_find_onHandle (h := parent.1), ← isSome_find_onHandle (h := child.1)]
      exact congrArg Option.isSome hfind
    have hne : v ≠ child := by
      rintro rfl
      rw [hnone] at hc
      cases hc
    rw [parents, hfind, parents, hnone, if_neg hne]
    rfl
  | some item' =>
    obtain ⟨item, hfind0, -, hstates⟩ := find_link hp hc hfind
    rw [parents_of_find hfind, parents_of_find hfind0, (hstates v.2).1]

end

theorem Counted.link (hc : s.Counted) (hlive : (s.handles.find child.1).isSome = true)
    (hfresh : parent ∉ s.parents child) (hlength : (s.parents child).length + 1 < 2 ^ 31) :
    ((s.insertChild parent child).pushParent child parent).Counted := by
  refine ⟨fun v => ?_, fun v => ?_, (length_lives_le fun g hg => ?_).trans hc.lives_le⟩
  · rw [parents_link hp hlive]
    split_ifs with hv
    · rw [hv]
      exact nodup_append_comm.mp (nodup_cons.mpr ⟨hfresh, hc.nodup _⟩)
    · rw [append_nil]
      exact hc.nodup v
  · rw [parents_link hp hlive]
    split_ifs with hv
    · rw [hv, length_append]
      exact hlength
    · rw [append_nil]
      exact hc.length_lt v
  · rwa [pushParent, isSome_find_onHandle, insertChild, isSome_find_onHandle] at hg

end

theorem addDependency_loop
    (parent : HandleWithState) (hl : s.Linked) (hp : (s.handles.find parent.1).isSome = true)
    (hexact : ∀ h ∈ handles, (s.handles.get h).isSome = true → (s.handles.find h).isSome = true) :
    (handles.foldl (fun s h => s.addDependency (h, cs) parent) s).Linked ∧
      (s.Counted → (handles.filter fun h => (s.handles.get h).isSome).Nodup →
        (∀ h ∈ handles, parent ∉ s.parents (h, cs) ∧ (s.parents (h, cs)).length + 1 < 2 ^ 31) →
        (handles.foldl (fun s h => s.addDependency (h, cs) parent) s).Counted) := by
  induction handles generalizing s with
  | nil => exact ⟨hl, fun hc _ _ => hc⟩
  | cons h handles ih =>
    obtain ⟨hhead, hrest⟩ := forall_mem_cons.mp hexact
    rw [foldl_cons]
    unfold addDependency
    cases hget : s.handles.get h with
    | none =>
      refine ⟨(ih hl hp hrest).1, fun hc hnodup hnew => (ih hl hp hrest).2 hc ?_ ?_⟩
      · rwa [filter_cons_of_neg (by simp [hget])] at hnodup
      · exact (forall_mem_cons.mp hnew).2
    | some item =>
      have hlive := hhead (by rw [hget]; rfl)
      have hfind : ∀ g, (((s.insertChild parent (h, cs)).pushParent (h, cs) parent).handles.find
          g).isSome = (s.handles.find g).isSome := by
        intro g
        rw [pushParent, isSome_find_onHandle, insertChild, isSome_find_onHandle]
      have hget' : ∀ g, (((s.insertChild parent (h, cs)).pushParent (h, cs) parent).handles.get
          g).isSome = (s.handles.get g).isSome := by
        intro g
        rw [pushParent, isSome_get_onHandle, insertChild, isSome_get_onHandle]
      obtain ⟨hlinked, hcounted⟩ := ih (hl.link hp hlive) (by rw [hfind, hp])
        (by simpa only [hfind, hget'] using hrest)
      refine ⟨hlinked, fun hc hnodup hnew => ?_⟩
      obtain ⟨⟨hfresh, hlength⟩, hnew⟩ := forall_mem_cons.mp hnew
      rw [filter_cons_of_pos (by simp [hget]), nodup_cons] at hnodup
      refine hcounted (hc.link hp hlive hfresh hlength) (by simpa only [hget'] using hnodup.2) ?_
      intro g hg
      rw [parents_link hp hlive]
      split_ifs with hgh
      · -- the same handle does not come again
        obtain rfl : g = h := congrArg Prod.fst hgh
        exact absurd (mem_filter.mpr ⟨hg, by simp [hget]⟩) hnodup.1
      · rw [append_nil]
        exact hnew g hg

/-! ### Runs -/

/-- Live handles were live before, with the same links. -/
def SameLinks (s s' : Reconstruction) : Prop :=
  ∀ (g : Handle) (item' : HandleWithStateReconstruction), s'.handles.find g = some item' →
    ∃ item, s.handles.find g = some item ∧ item'.destroying = item.destroying ∧
      ∀ st, (item'.states st).parentHandles = (item.states st).parentHandles ∧
        (item'.states st).childHandles = (item.states st).childHandles

theorem SameLinks.of_handles (h : s'.handles = s.handles) : SameLinks s s' :=
  fun _ item' hfind => ⟨item', h ▸ hfind, rfl, fun _ => ⟨rfl, rfl⟩⟩

theorem sameLinks_forEachHandleAddApi (s : Reconstruction) (toProcess : List Handle) (api : Handle)
    (st : HandleState) : SameLinks s (s.forEachHandleAddApi toProcess api st) := by
  induction toProcess generalizing s with
  | nil => exact .of_handles rfl
  | cons h toProcess ih =>
    intro g item' hfind
    obtain ⟨item1, hfind1, hdest1, hlinks1⟩ := ih _ g item' hfind
    rw [find_onHandle] at hfind1
    split_ifs at hfind1
    · obtain ⟨item, hfind0, rfl⟩ := map_eq_some_iff.mp hfind1
      refine ⟨item, hfind0, hdest1, fun st' => ?_⟩
      rw [(hlinks1 st').1, (hlinks1 st').2, onState_states]
      split_ifs with hst
      · rw [hst]
        exact ⟨rfl, rfl⟩
      · exact ⟨rfl, rfl⟩
    · exact ⟨item1, hfind1, hdest1, hlinks1⟩

theorem Linked.of_same (hl : s.Linked) (hsame : SameLinks s s') : s'.Linked := by
  constructor
  · intro g item' hfind
    obtain ⟨item, hfind0, hdest, -⟩ := hsame g item' hfind
    rw [hdest]
    exact hl.settled g item hfind0
  · intro u v a b ha hfreea hb hfreeb
    obtain ⟨a0, ha0, hdesta, hlinksa⟩ := hsame u.1 a ha
    obtain ⟨b0, hb0, hdestb, hlinksb⟩ := hsame v.1 b hb
    rw [(hlinksb v.2).1, (hlinksa u.2).2]
    exact hl.standing u v a0 b0 ha0 (hdesta ▸ hfreea) hb0 (hdestb ▸ hfreeb)

theorem Counted.of_same (hc : s.Counted) (hsame : SameLinks s s') : s'.Counted := by
  apply hc.of_parents
  · intro v
    cases hfind : s'.handles.find v.1 with
    | none =>
      left
      rw [parents, hfind]
    | some item' =>
      right
      obtain ⟨item, hfind0, -, hlinks⟩ := hsame v.1 item' hfind
      rw [parents_of_find hfind, parents_of_find hfind0, (hlinks v.2).1]
  · refine (length_lives_le fun g hg => ?_).trans hc.lives_le
    obtain ⟨item', hfind⟩ := isSome_iff_exists.mp hg
    obtain ⟨item, hfind0, -⟩ := hsame g item' hfind
    rw [hfind0]
    rfl

/-- A call that names live handles by the handles they were added under returns, and keeps
parents and children in agreement; one that records no dependency twice keeps the counters
right. -/
theorem step_linked (order : Order) (hl : s.Linked) {e : Event} (he : s.Unambiguous e) :
    ∃ r, step order s e = .ok r ∧ r.1.Linked ∧ (s.Counted → s.Single e → r.1.Counted) := by
  have hsame : ∀ {s'}, SameLinks s s' → s'.Linked ∧ (s.Counted → s.Single e → s'.Counted) :=
    fun h => ⟨hl.of_same h, fun hc _ => hc.of_same h⟩
  cases e with
  | createApiInfo =>
    obtain ⟨⟨apiTrace, h⟩, hadd⟩ := s.apiTrace.add_isOk default 1
    refine ⟨({ s with apiTrace := apiTrace }, some h), ?_, hsame (.of_handles rfl)⟩
    simp only [step, createApiInfo, hadd, ok_bind, pure_eq_ok]
  | setApiTrace api opCode trace =>
    obtain ⟨item, hget⟩ := isSome_iff_exists.mp he
    refine ⟨({ s with apiTrace := s.apiTrace.modify api (.setTrace opCode trace) }, none), ?_,
      hsame (.of_handles rfl)⟩
    simp only [step, setApiTrace, getApiInfo, hget, ok_bind, pure_eq_ok]
  | setCreatedHandlesForApi api created =>
    refine ⟨_, rfl, hsame (.of_handles ?_)⟩
    unfold setCreatedHandlesForApi
    split <;> rfl
  | createExtraHandlesForNextApi created =>
    exact ⟨_, rfl, hsame (.of_handles rfl)⟩
  | addHandles toAdd =>
    exact ⟨_, rfl, hl.addHandles he, fun hc hs => hc.addHandles hs⟩
  | removeHandles toRemove recursive =>
    obtain ⟨s', hs'⟩ := s.removeHandles_isOk order toRemove recursive
    refine ⟨(s', none), ?_, hl.swept (removeHandles_swept hs'),
      fun hc _ => hc.swept hl (removeHandles_swept hs')⟩
    simp only [step, hs', ok_bind, pure_eq_ok]
  | forEachHandleAddApi toProcess api st =>
    exact ⟨_, rfl, hsame (s.sameLinks_forEachHandleAddApi toProcess api st)⟩
  | addHandleDependency handles parentHandle childState parentState =>
    refine ⟨_, rfl, ?_⟩
    unfold addHandleDependency
    by_cases hzero : parentHandle = 0
    · rw [if_pos hzero]
      exact ⟨hl, fun hc _ => hc⟩
    rw [if_neg hzero]
    cases hget : s.handles.get parentHandle with
    | none => exact ⟨hl, fun hc _ => hc⟩
    | some item =>
      have hsome : (s.handles.get parentHandle).isSome = true := by rw [hget]; rfl
      obtain ⟨hparent, hexact⟩ := he hzero hsome
      obtain ⟨hlinked, hcounted⟩ :=
        addDependency_loop (parentHandle, parentState) hl hparent hexact
      exact ⟨hlinked, fun hc hs => hcounted hc (hs hzero hsome).1 (hs hzero hsome).2⟩
  | forEachHandleAddModifyApi toProcess api =>
    exact ⟨_, rfl, hsame (.of_handles rfl)⟩
  | forEachHandleClearModifyApi toProcess =>
    exact ⟨_, rfl, hsame (.of_handles rfl)⟩

theorem linked_new : new.Linked := by
  constructor
  · intro h item hfind
    cases hfind
  · intro u v a b ha
    cases ha

theorem counted_new : new.Counted := by
  have hparents : ∀ v, new.parents v = [] := by
    intro v
    rw [parents, new, find_empty]
  refine ⟨fun v => ?_, fun v => ?_, by decide⟩
  · rw [hparents]
    exact nodup_nil
  · rw [hparents]
    decide

/-- Parents and children agree after every run of calls that name live handles by the handles
they were added under. -/
theorem run_linked (order : Order) (events : List Event)
    (hmeets : Meets (step order) Unambiguous new events) :
    ∃ s, (run (step order) new events).2 = .ok s ∧ s.Linked := by
  refine run_ok_of_meets (fun s e hs he => ?_) events linked_new hmeets
  obtain ⟨⟨s', o⟩, hstep, hl, -⟩ := step_linked order hs he
  exact ⟨s', o, hstep, hl⟩

theorem run_counted (order : Order) (events : List Event)
    (hmeets : Meets (step order) (fun s e => s.Unambiguous e ∧ s.Single e) new events) :
    ∃ s, (run (step order) new events).2 = .ok s ∧ s.Linked ∧ s.Counted := by
  refine run_ok_of_meets (fun s e hs he => ?_) events ⟨linked_new, counted_new⟩ hmeets
  obtain ⟨⟨s', o⟩, hstep, hl, hc⟩ := step_linked order hs.1 he.1
  exact ⟨s', o, hstep, hl, hc hs.2 he.2⟩

/-! ### Saving -/

theorem mem_pairs : v ∈ s.pairs ↔ s.Live v := by
  unfold pairs Live
  rw [mem_flatMap, isSome_iff_exists]
  constructor
  · rintro ⟨⟨h, item⟩, hmem, hv⟩
    obtain ⟨st, -, rfl⟩ := mem_map.mp hv
    exact ⟨item, mem_lives.mp hmem⟩
  · rintro ⟨item, hfind⟩
    exact ⟨(v.1, item), mem_lives.mpr hfind, mem_map.mpr ⟨v.2, by simp, rfl⟩⟩

theorem nodup_pairs (s : Reconstruction) : s.pairs.Nodup := by
  unfold pairs
  rw [nodup_flatMap]
  constructor
  · intro p _
    exact Nodup.map (fun a b hab => congrArg Prod.snd hab) (by decide)
  · have hlives := s.handles.nodup_lives
    rw [Nodup, pairwise_map] at hlives
    refine hlives.imp fun hne => ?_
    intro v hv hv'
    obtain ⟨st, -, rfl⟩ := mem_map.mp hv
    obtain ⟨st', -, heq⟩ := mem_map.mp hv'
    exact hne (congrArg Prod.fst heq).symm

theorem length_pairs (s : Reconstruction) : s.pairs.length = s.handles.lives.length * 2 := by
  unfold pairs
  simp [HandleState.all]

/-- The children that the loop over a layer lowers the counters of. -/
def kids (s : Reconstruction) (v : HandleWithState) : List HandleWithState :=
  (s.entry v.1 v.2).childHandles.elems

theorem childrenOf_perm (v : HandleWithState) (ds : List HandleWithState)
    (h : s.childrenOf order v = .ok ds) : ds.Perm (s.kids v) := by
  unfold childrenOf entryOf at h
  unfold kids entry
  cases hget : s.handles.get v.1 with
  | none =>
    rw [hget] at h
    cases h
  | some item =>
    rw [hget] at h
    cases h
    exact order.walk_perm _

theorem childrenOf_isOk (hv : v ∈ s.pairs) : (s.childrenOf order v).IsOk := by
  obtain ⟨item, hfind⟩ := isSome_iff_exists.mp (mem_pairs.mp hv)
  unfold childrenOf entryOf
  rw [get_of_find hfind]
  exact ⟨_, rfl⟩

theorem entry_of_find
    (hfind : s.handles.find v.1 = some item) : s.entry v.1 v.2 = item.states v.2 := by
  rw [entry, get_of_find hfind]

theorem parents_of_not_mem (hv : v ∉ s.pairs) : s.parents v = [] := by
  unfold parents
  cases hfind : s.handles.find v.1 with
  | none => rfl
  | some item =>
    exact absurd (mem_pairs.mpr (show (s.handles.find v.1).isSome = true by rw [hfind]; rfl)) hv

theorem graph (hl : s.Linked) (hc : s.Counted) : Graph s.pairs s.parents s.kids where
  nodup := s.nodup_pairs
  nodup_parents v _ := hc.nodup v
  nodup_kids v _ := (s.entry v.1 v.2).childHandles.nodup
  mem_parents u hu v hv := by
    obtain ⟨a, ha⟩ := isSome_iff_exists.mp (mem_pairs.mp hu)
    obtain ⟨b, hb⟩ := isSome_iff_exists.mp (mem_pairs.mp hv)
    rw [parents_of_find hb, kids, entry_of_find ha]
    exact hl.standing u v a b ha (hl.settled _ a ha) hb (hl.settled _ b hb)

theorem totalParents_eq (hc : s.Counted) (v : HandleWithState) :
    s.totalParents v = (s.parents v).length := by
  have hlt := hc.length_lt v
  exact wrapInt_of_bounds (by omega) (by omega)

theorem totalParents_of_not_mem (hv : v ∉ s.pairs) : s.totalParents v = 0 := by
  rw [totalParents, parents_of_not_mem hv]
  decide

theorem totalParents_of_starts (v : HandleWithState)
    (hv : v ∈ s.pairs.filter fun v => s.parents v = []) : s.totalParents v ≤ 0 := by
  have hnil : s.parents v = [] := by simpa using (mem_filter.mp hv).2
  rw [totalParents, hnil]
  decide

theorem handlesByTopoOrder_isOk (order : Order) (hc : s.Counted) :
    (s.handlesByTopoOrder order).IsOk := by
  have hcounted : ∀ v, 1 ≤ s.totalParents v → v ∈ s.pairs := by
    intro v hv
    by_contra hnot
    rw [totalParents_of_not_mem hnot] at hv
    omega
  have hhigh : ∀ v, s.totalParents v < 2 ^ 31 := by
    intro v
    have hlt := hc.length_lt v
    rw [totalParents_eq hc]
    omega
  have hlow : ∀ v, -2 ^ 31 ≤ s.totalParents v - (s.pairs.length : ℤ) := by
    intro v
    have htotal := totalParents_eq hc v
    have hlives := hc.lives_le
    rw [s.length_pairs]
    omega
  exact layers_isOk totalParents_of_starts order.sortHandles_perm childrenOf_perm
    (fun v hv => mem_of_mem_filter hv) hcounted (fun v hv => childrenOf_isOk hv)
    (fun v _ => (s.entry v.1 v.2).childHandles.nodup) hhigh hlow
    (by rw [length_nil]; omega) (.start (s.nodup_pairs.filter _))

theorem layering (hl : s.Linked) (hc : s.Counted)
    (h : s.handlesByTopoOrder order = .ok layers) : Layering s.pairs s.parents layers :=
  (graph hl hc).layering order.sortHandles_perm childrenOf_perm
    (fun v _ => totalParents_eq hc v) (fun _ => totalParents_of_not_mem) h

/-- What `save` should do: it puts each live pair whose ancestors are all live into one layer,
after the layers of its parents, and no other pair. -/
structure SavedInOrder (s : Reconstruction) (layers : List (List HandleWithState)) : Prop where
  once : layers.flatten.Nodup
  mem_flatten : ∀ v, v ∈ layers.flatten ↔ s.Live v ∧ ∀ u, s.Ancestor u v → s.Live u
  after_parents : ∀ before layer rest, layers = before ++ layer :: rest →
    ∀ v ∈ layer, ∀ u, s.ParentOf u v → u ∈ before.flatten

theorem parent_eq (s : Reconstruction) : Layering.Parent s.pairs s.parents = s.ParentOf := by
  funext u v
  apply propext
  constructor
  · exact fun hp => hp.2
  · intro hp
    refine ⟨?_, hp⟩
    by_contra hv
    have hmem : u ∈ s.parents v := hp
    rw [parents_of_not_mem hv] at hmem
    cases hmem

theorem savedInOrder_of_layering (hacyclic : s.Acyclic)
    (h : Layering s.pairs s.parents layers) : s.SavedInOrder layers := by
  have hancestor : Layering.Ancestor s.pairs s.parents = s.Ancestor :=
    congrArg Relation.TransGen s.parent_eq
  have hcycle : Layering.Acyclic s.pairs s.parents := by
    intro v
    rw [hancestor]
    exact hacyclic v
  refine ⟨h.nodup, fun v => ?_, h.before⟩
  rw [h.mem_iff hcycle v, hancestor]
  simp only [mem_pairs]

theorem acyclic_of_rank (rank : HandleWithState → ℕ)
    (hrank : ∀ v ∈ s.pairs, ∀ u ∈ s.parents v, rank u < rank v) : s.Acyclic := by
  intro v hv
  have hlt : ∀ u v, s.Ancestor u v → rank u < rank v := by
    intro u v huv
    induction huv with
    | single hp =>
      rw [← s.parent_eq] at hp
      exact hrank _ hp.1 _ hp.2
    | tail _ hp ih =>
      rw [← s.parent_eq] at hp
      exact ih.trans (hrank _ hp.1 _ hp.2)
  exact lt_irrefl _ (hlt v v hv)

theorem Ancestor.exists_child (h : s.Ancestor u v) : ∃ w ∈ s.pairs, u ∈ s.parents w := by
  unfold Ancestor at h
  rw [← s.parent_eq] at h
  obtain ⟨w, hw, -⟩ := Relation.TransGen.head'_iff.mp h
  exact ⟨w, hw⟩

end Reconstruction

open Reconstruction

/-- After every run of calls that name live handles by the handles they were added under and
record no dependency twice, `save` puts the pairs in the order it should, if the links have no
cycle. -/
theorem run_saves_in_order (order : Order) (events : List Event)
    (hmeets : Meets (step order) (fun s e => s.Unambiguous e ∧ s.Single e) .new events) :
    ∃ s, (run (step order) .new events).2 = .ok s ∧
      (s.Acyclic → ∃ layers, s.handlesByTopoOrder order = .ok layers ∧ s.SavedInOrder layers) := by
  obtain ⟨s, hrun, hl, hc⟩ := run_counted order events hmeets
  refine ⟨s, hrun, fun hacyclic => ?_⟩
  obtain ⟨layers, hlayers⟩ := handlesByTopoOrder_isOk order hc
  exact ⟨layers, hlayers, savedInOrder_of_layering hacyclic (layering hl hc hlayers)⟩

/-- A device with memory and an image bound to it; the memory is removed, and the image goes on
to be saved in its first state only. -/
theorem run_saves_in_order_bound_image :
    Meets (step .plain) (fun s e => s.Unambiguous e ∧ s.Single e) .new
        [.addHandles [1], .addHandles [2, 3], .addHandleDependency [2, 3] 1 .created .created,
          .addHandleDependency [3] 2 .boundMemory .created, .removeHandles [2] true] ∧
      ∃ s, (run (step .plain) .new
        [.addHandles [1], .addHandles [2, 3], .addHandleDependency [2, 3] 1 .created .created,
          .addHandleDependency [3] 2 .boundMemory .created, .removeHandles [2] true]).2 = .ok s ∧
        (s.Acyclic → ∃ layers, s.handlesByTopoOrder .plain = .ok layers ∧
          s.SavedInOrder layers) := by
  have hmeets : Meets (step .plain) (fun s e => s.Unambiguous e ∧ s.Single e) .new
      [.addHandles [1], .addHandles [2, 3], .addHandleDependency [2, 3] 1 .created .created,
        .addHandleDependency [3] 2 .boundMemory .created, .removeHandles [2] true] := by
    decide +kernel
  exact ⟨hmeets, run_saves_in_order .plain _ hmeets⟩

/-- The child of a dependency that is recorded twice is left out: its two parents are counted,
but the set of children holds it once. -/
theorem repeated_dependency_is_left_out :
    ∃ s, (run (step .plain) .new [.addHandles [1, 2], .addHandleDependency [2] 1 .created .created,
        .addHandleDependency [2] 1 .created .created]).2 = .ok s ∧
      s.Acyclic ∧ s.Live (2, .created) ∧ (∀ u, s.Ancestor u (2, .created) → s.Live u) ∧
      ¬ ∃ layers, s.handlesByTopoOrder .plain = .ok layers ∧ s.SavedInOrder layers := by
  set events : List Event := [.addHandles [1, 2], .addHandleDependency [2] 1 .created .created,
    .addHandleDependency [2] 1 .created .created] with hevents
  -- what the state reached looks like
  have heval : (run (step .plain) .new events).2.map
      (fun s => s.pairs.map fun v => (v, s.parents v)) =
      .ok [((1, .created), []), ((1, .boundMemory), []),
        ((2, .created), [(1, .created), (1, .created)]), ((2, .boundMemory), [])] := by
    decide +kernel
  obtain ⟨s, hrun, hparents⟩ := map_eq_ok.mp heval
  have hlayers : ((run (step .plain) .new events).2 >>= fun s => s.handlesByTopoOrder .plain) =
      .ok [[(1, .created), (1, .boundMemory), (2, .boundMemory)]] := by decide +kernel
  have hlives : (run (step .plain) .new events).2.map
      (fun s => ((s.handles.find 1).isSome, (s.handles.find 2).isSome)) = .ok (true, true) := by
    decide +kernel
  rw [hrun] at hlayers hlives
  obtain ⟨hone, htwo⟩ := pair_inj hlives
  have hlink : ∀ v ∈ s.pairs, ∀ u ∈ s.parents v, u.1 = 1 ∧ v.1 = 2 := by
    intro v hv u hu
    have hmem := List.mem_map_of_mem (f := fun v => (v, s.parents v)) hv
    rw [hparents] at hmem
    simp only [mem_cons, Prod.mk.injEq, not_mem_nil, or_false] at hmem
    rcases hmem with ⟨-, hp⟩ | ⟨-, hp⟩ | ⟨rfl, hp⟩ | ⟨-, hp⟩
    · simp [hp] at hu
    · simp [hp] at hu
    · simp only [hp, mem_cons, not_mem_nil, or_false, or_self_iff] at hu
      rw [hu]
      exact ⟨rfl, rfl⟩
    · simp [hp] at hu
  have hacyclic : s.Acyclic := by
    apply acyclic_of_rank fun v => v.1.toNat
    intro v hv u hu
    obtain ⟨hu, hv⟩ := hlink v hv u hu
    rw [hu, hv]
    decide
  have hancestors : ∀ u, s.Ancestor u (2, .created) → s.Live u := by
    intro u hu
    obtain ⟨w, hw, hmem⟩ := hu.exists_child
    unfold Live
    rw [(hlink w hw u hmem).1]
    exact hone
  refine ⟨s, hrun, hacyclic, htwo, hancestors, ?_⟩
  rintro ⟨layers, hok, hsaved⟩
  obtain rfl := Except.ok.inj (hok.symm.trans hlayers)
  have hmem := (hsaved.mem_flatten (2, .created)).mpr ⟨htwo, hancestors⟩
  revert hmem
  decide

end AndroidEmu.Vulkan
