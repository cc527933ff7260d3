import AndroidEmu.CS.ByteStream
import AndroidEmu.CS.Layers
import AndroidEmu.CS.UnorderedSet
import AndroidEmu.EntityManager.Records
import AndroidEmu.EntityManager.Unpacked

/-!
# The Vulkan reconstruction

`VkReconstruction` records for each state of a live handle the calls that brought it there, a vector
of parents and a hash set of children. `save` puts the pairs of a handle and a state in a
topological order by counting parents. The order in which a loop meets the elements of a hash set,
and the order that `std::sort` leaves between equal elements, are the parameters of `Order`.
-/

namespace AndroidEmu.Vulkan

open CS EntityManager

/-! ### Data -/

/-- The trace is never shorter than the bytes in use. -/
structure ApiInfo where
  opCode : BitVec 32
  trace : Bytes
  traceBytes : ℕ
  createdHandles : List Handle
  traceBytes_le : traceBytes ≤ trace.length

instance : Inhabited ApiInfo := ⟨⟨0, [], 0, [], le_rfl⟩⟩

/-- The change of `setApiTrace`: the trace only grows. -/
def ApiInfo.setTrace (opCode : BitVec 32) (trace : Bytes) (item : ApiInfo) : ApiInfo where
  opCode := opCode
  trace := trace ++ item.trace.drop trace.length
  traceBytes := trace.length
  createdHandles := item.createdHandles
  traceBytes_le := by
    rw [List.length_append]
    exact Nat.le_add_right _ _

/-- `HandleState`; `BEGIN` is `CREATED`. -/
inductive HandleState
  | created
  | boundMemory
  deriving DecidableEq, Repr

def HandleState.all : List HandleState := [.created, .boundMemory]

@[simp] theorem HandleState.mem_all (st : HandleState) : st ∈ HandleState.all := by
  cases st with
  | created => decide
  | boundMemory => decide

instance : Fintype HandleState := ⟨⟨HandleState.all, by decide⟩, HandleState.mem_all⟩

def HandleState.toNat : HandleState → ℕ
  | .created => 0
  | .boundMemory => 1

abbrev HandleWithState := Handle × HandleState

/-- What is recorded of a pair. -/
structure HandleReconstruction where
  apiRefs : List Handle
  childHandles : UnorderedSet HandleWithState
  parentHandles : List HandleWithState

/-- What is recorded of a handle, with an entry for each state. -/
structure HandleWithStateReconstruction where
  states : HandleState → HandleReconstruction
  delayedDestroy : Bool
  destroying : Bool

/-- The calls that modify a handle. -/
structure HandleModification where
  apiRefs : List Handle
  order : ℕ

def HandleReconstruction.new : HandleReconstruction := ⟨[], .empty, []⟩

def HandleWithStateReconstruction.new : HandleWithStateReconstruction :=
  ⟨fun _ => .new, false, false⟩

/-- Change the entry of one state. -/
def HandleWithStateReconstruction.onState (item : HandleWithStateReconstruction)
    (st : HandleState) (f : HandleReconstruction → HandleReconstruction) :
    HandleWithStateReconstruction :=
  { item with states := Function.update item.states st (f (item.states st)) }

/-- `VkReconstruction`. -/
structure Reconstruction where
  apiTrace : Manager Layout.usual ApiInfo
  handles : Components Layout.usual HandleWithStateReconstruction
  modifications : Components Layout.usual HandleModification
  extraHandlesForNextApi : List Handle

/-- The constructor of `VkReconstruction`. -/
def Reconstruction.new : Reconstruction := ⟨.new Layout.usual 0, .empty, .empty, []⟩

/-- The comparison of `typeTagSortedHandles`. -/
def typeTagLess (lhs rhs : HandleWithState) : Prop :=
  if lhs.2 ≠ rhs.2 then lhs.2.toNat < rhs.2.toNat
  else Layout.usual.getHandleType lhs.1 < Layout.usual.getHandleType rhs.1

instance (lhs rhs : HandleWithState) : Decidable (typeTagLess lhs rhs) := by
  unfold typeTagLess
  infer_instance

/-- What the standard library chooses: how `std::sort` arranges a vector, and in which order a
loop meets the elements of a hash set. -/
structure Order where
  sortHandles : List HandleWithState → List HandleWithState
  sortHandles_perm : ∀ handles, (sortHandles handles).Perm handles
  sortHandles_sorted : ∀ handles, (sortHandles handles).Pairwise fun u v => ¬ typeTagLess v u
  sortModifies : List HandleModification → List HandleModification
  sortModifies_perm : ∀ mods, (sortModifies mods).Perm mods
  sortModifies_sorted : ∀ mods, (sortModifies mods).Pairwise fun a b => ¬ b.order < a.order
  walk : UnorderedSet HandleWithState → List HandleWithState
  walk_perm : ∀ set, (walk set).Perm set.elems

/-- The loop of `getOrderedUniqueModifyApis`. -/
def keepFirst (used : UnorderedSet Handle) : List Handle → List Handle
  | [] => []
  | api :: refs =>
    if api ∈ used then keepFirst used refs else api :: keepFirst (used.insert api) refs

namespace Reconstruction

/-! ### Recorded calls -/

/-- `VkReconstruction::createApiInfo`. -/
def createApiInfo (s : Reconstruction) : Checked (Reconstruction × Handle) := do
  let (apiTrace, handle) ← s.apiTrace.add default 1
  return ({ s with apiTrace := apiTrace }, handle)

/-- `VkReconstruction::destroyApiInfo`. -/
def destroyApiInfo (apiTrace : Manager Layout.usual ApiInfo) (h : Handle) :
    Checked (Manager Layout.usual ApiInfo) :=
  match apiTrace.get h with
  | none => .ok apiTrace
  | some _ =>
    (apiTrace.modify h fun item =>
      { item with traceBytes := 0, createdHandles := [], traceBytes_le := Nat.zero_le _ }).remove h

/-- `getApiInfo`, where the pointer is used. -/
def getApiInfo (s : Reconstruction) (h : Handle) : Checked ApiInfo :=
  match s.apiTrace.get h with
  | none => .error .nullPointer
  | some item => .ok item

/-- `setApiTrace`, on what `getApiInfo` returns. -/
def setApiTrace (s : Reconstruction) (api : Handle) (opCode : BitVec 32) (trace : Bytes) :
    Checked Reconstruction := do
  let _ ← s.getApiInfo api
  return { s with apiTrace := s.apiTrace.modify api (ApiInfo.setTrace opCode trace) }

/-- `VkReconstruction::setCreatedHandlesForApi`. -/
def setCreatedHandlesForApi (s : Reconstruction) (api : Handle) (created : List Handle) :
    Reconstruction :=
  match s.apiTrace.get api with
  | none => s
  | some _ =>
    { s with
      apiTrace := s.apiTrace.modify api fun item =>
        { item with createdHandles := item.createdHandles ++ created ++ s.extraHandlesForNextApi }
      extraHandlesForNextApi := [] }

def createExtraHandlesForNextApi (s : Reconstruction) (created : List Handle) : Reconstruction :=
  { s with extraHandlesForNextApi := created }

/-! ### Handles -/

/-- Change what is recorded of a handle. -/
def onHandle (s : Reconstruction) (h : Handle)
    (f : HandleWithStateReconstruction → HandleWithStateReconstruction) : Reconstruction :=
  { s with handles := s.handles.modify h f }

/-- What is recorded of a handle that is live, in a state. -/
def entry (s : Reconstruction) (h : Handle) (st : HandleState) : HandleReconstruction :=
  match s.handles.get h with
  | none => .new
  | some item => item.states st

/-- `VkReconstruction::addHandles`. -/
def addHandles (s : Reconstruction) (toAdd : List Handle) : Reconstruction :=
  { s with handles := toAdd.foldl (fun handles h => handles.add h .new) s.handles }

/-- `VkReconstruction::forEachHandleAddApi`. -/
def forEachHandleAddApi (s : Reconstruction) (toProcess : List Handle) (api : Handle)
    (st : HandleState) : Reconstruction :=
  toProcess.foldl (fun s h => s.onHandle h fun item =>
    item.onState st fun r => { r with apiRefs := r.apiRefs ++ [api] }) s

/-- One turn of `forEachHandleDeleteApi`. -/
def deleteApi (s : Reconstruction) (h : Handle) : Checked Reconstruction :=
  match s.handles.get h with
  | none => .ok s
  | some item => do
    let refs := HandleState.all.flatMap fun st => (item.states st).apiRefs
    let apiTrace ← refs.foldlM destroyApiInfo s.apiTrace
    return { s with
      apiTrace := apiTrace
      handles := s.handles.modify h fun item =>
        { item with states := fun st => { item.states st with apiRefs := [] } }
      modifications := s.modifications.modify h fun mod => { mod with apiRefs := [] } }

/-- `VkReconstruction::forEachHandleDeleteApi`. -/
def forEachHandleDeleteApi (s : Reconstruction) (toProcess : List Handle) :
    Checked Reconstruction := toProcess.foldlM deleteApi s

/-- A child for the parent. -/
def insertChild (s : Reconstruction) (parent child : HandleWithState) : Reconstruction :=
  s.onHandle parent.1 fun item => item.onState parent.2 fun r =>
    { r with childHandles := r.childHandles.insert child }

/-- The parent loses a child. -/
def eraseChild (s : Reconstruction) (parent child : HandleWithState) : Reconstruction :=
  s.onHandle parent.1 fun item => item.onState parent.2 fun r =>
    { r with childHandles := r.childHandles.erase child }

/-- A parent for the child. -/
def pushParent (s : Reconstruction) (child parent : HandleWithState) : Reconstruction :=
  s.onHandle child.1 fun item => item.onState child.2 fun r =>
    { r with parentHandles := r.parentHandles ++ [parent] }

/-- One turn of `addHandleDependency`. The reference to the parent's state stays valid when the
lookup of the child extends the array: the vector of states moves with its elements. -/
def addDependency (s : Reconstruction) (child parent : HandleWithState) : Reconstruction :=
  match s.handles.get child.1 with
  | none => s
  | some _ => (s.insertChild parent child).pushParent child parent

/-- `VkReconstruction::addHandleDependency`. -/
def addHandleDependency (s : Reconstruction) (handles : List Handle) (parentHandle : Handle)
    (childState parentState : HandleState) : Reconstruction :=
  if parentHandle = 0 then s
  else
    match s.handles.get parentHandle with
    | none => s
    | some _ =>
      handles.foldl (fun s h => s.addDependency (h, childState) (parentHandle, parentState)) s

/-! ### Removal -/

variable (order : Order)

def clearLinks (s : Reconstruction) (v : HandleWithState) : Reconstruction :=
  s.onHandle v.1 fun item => item.onState v.2 fun r =>
    { r with parentHandles := [], childHandles := .empty }

/-- Forget a handle's pair at the side of its parents. -/
def unlinkParents (s : Reconstruction) (v : HandleWithState) : Reconstruction :=
  (s.entry v.1 v.2).parentHandles.foldl (fun s parent => s.eraseChild parent v) s

/-- The handles created from a pair. -/
def createdFrom (s : Reconstruction) (v : HandleWithState) : List Handle :=
  ((order.walk (s.entry v.1 v.2).childHandles).filter (·.2 = .created)).map Prod.fst

/-- The links of one state of a handle, with a way to remove the handles created from it. -/
def removeLinks (recurse : Reconstruction → List Handle → Checked Reconstruction)
    (s : Reconstruction) (v : HandleWithState) : Checked Reconstruction :=
  let s := s.unlinkParents v
  recurse (s.clearLinks v) (s.createdFrom order v)

/-- Delete the calls of a handle, and the handle. -/
def dropHandle (s : Reconstruction) (h : Handle) : Checked Reconstruction := do
  let s ← s.forEachHandleDeleteApi [h]
  return { s with handles := s.handles.remove h }

def removeHandle (recurse : Reconstruction → List Handle → Checked Reconstruction)
    (recursive : Bool) (s : Reconstruction) (h : Handle) : Checked Reconstruction :=
  match s.handles.get h with
  | none => .ok s
  | some item =>
    if item.destroying then .ok s
    else
      let marked := s.onHandle h fun item => { item with destroying := true }
      if recursive then do
        let s ← HandleState.all.foldlM (fun s st => removeLinks order recurse s (h, st)) marked
        s.dropHandle h
      else if HandleState.all.all fun st => (item.states st).childHandles.elems.isEmpty then
        marked.dropHandle h
      else
        .ok (marked.onHandle h fun item =>
          { item with delayedDestroy := true, destroying := false })

/-- The calls of `removeHandles` within each other, to a depth. -/
def removeHandlesTo : ℕ → Bool → Reconstruction → List Handle → Checked Reconstruction
  | 0, _, _, _ => .error .endless
  | depth + 1, recursive, s, toRemove =>
    toRemove.foldlM (removeHandle order (removeHandlesTo depth true) recursive) s

/-- A handle is marked while it is being removed, so there are never more nested calls than live
handles. -/
def removeHandles (s : Reconstruction) (toRemove : List Handle) (recursive : Bool) :
    Checked Reconstruction :=
  removeHandlesTo order (s.handles.lives.length + 1) recursive s toRemove

/-! ### Modifications -/

/-- `VkReconstruction::forEachHandleAddModifyApi`. -/
def forEachHandleAddModifyApi (s : Reconstruction) (toProcess : List Handle) (api : Handle) :
    Reconstruction :=
  { s with modifications := toProcess.foldl (fun mods h => mods.add h ⟨[api], 0⟩) s.modifications }

/-- `VkReconstruction::forEachHandleClearModifyApi`. -/
def forEachHandleClearModifyApi (s : Reconstruction) (toProcess : List Handle) : Reconstruction :=
  { s with modifications := toProcess.foldl (fun mods h => mods.add h ⟨[], 0⟩) s.modifications }

/-- `VkReconstruction::getOrderedUniqueModifyApis`. -/
def getOrderedUniqueModifyApis (s : Reconstruction) : List Handle :=
  keepFirst .empty
    ((order.sortModifies (s.modifications.lives.map Prod.snd)).flatMap HandleModification.apiRefs)

/-! ### Saving -/

/-- The pairs that `save` counts parents for, in order. -/
def pairs (s : Reconstruction) : List HandleWithState :=
  s.handles.lives.flatMap fun p => HandleState.all.map fun st => (p.1, st)

/-- The parents that are recorded. -/
def parents (s : Reconstruction) (v : HandleWithState) : List HandleWithState :=
  match s.handles.find v.1 with
  | none => []
  | some item => (item.states v.2).parentHandles

/-- `totalParents` after the first loop of `save`: zero for a pair that is not counted. -/
def totalParents (s : Reconstruction) (v : HandleWithState) : ℤ := wrapInt (s.parents v).length

def entryOf (s : Reconstruction) (v : HandleWithState) : Checked HandleReconstruction :=
  match s.handles.get v.1 with
  | none => .error .nullPointer
  | some item => .ok (item.states v.2)

def childrenOf (s : Reconstruction) (v : HandleWithState) : Checked (List HandleWithState) := do
  let r ← s.entryOf v
  return order.walk r.childHandles

/-- Parents before children. -/
def handlesByTopoOrder (s : Reconstruction) : Checked (List (List HandleWithState)) :=
  Layers.layers (s.childrenOf order) order.sortHandles (s.pairs.length + 1) s.totalParents
    (s.pairs.filter fun v => s.parents v = [])

def apiRefsOf (s : Reconstruction) (v : HandleWithState) : Checked (List Handle) := do
  let r ← s.entryOf v
  return r.apiRefs

def nextApis (s : Reconstruction) (handles : List HandleWithState) : Checked (List Handle) := do
  let refs ← handles.mapM s.apiRefsOf
  return refs.flatten

/-- The calls, layer by layer. -/
def uniqApiRefsByTopoOrder (s : Reconstruction) : Checked (List (List Handle)) := do
  let layers ← s.handlesByTopoOrder order
  let apis ← layers.mapM s.nextApis
  return apis ++ [s.getOrderedUniqueModifyApis order]

end Reconstruction

/-! ### Runs -/

/-- The calls of the recorder. -/
inductive Event
  | createApiInfo
  | setApiTrace (api : Handle) (opCode : BitVec 32) (trace : Bytes)
  | setCreatedHandlesForApi (api : Handle) (created : List Handle)
  | createExtraHandlesForNextApi (created : List Handle)
  | addHandles (toAdd : List Handle)
  | removeHandles (toRemove : List Handle) (recursive : Bool)
  | forEachHandleAddApi (toProcess : List Handle) (api : Handle) (state : HandleState)
  | addHandleDependency (handles : List Handle) (parentHandle : Handle)
      (childState parentState : HandleState)
  | forEachHandleAddModifyApi (toProcess : List Handle) (api : Handle)
  | forEachHandleClearModifyApi (toProcess : List Handle)

/-- A call, with the handle that `createApiInfo` returns. -/
def step (order : Order) (s : Reconstruction) : Event → Checked (Reconstruction × Option Handle)
  | .createApiInfo => do
    let (s, h) ← s.createApiInfo
    return (s, some h)
  | .setApiTrace api opCode trace => do
    let s ← s.setApiTrace api opCode trace
    return (s, none)
  | .setCreatedHandlesForApi api created => .ok (s.setCreatedHandlesForApi api created, none)
  | .createExtraHandlesForNextApi created => .ok (s.createExtraHandlesForNextApi created, none)
  | .addHandles toAdd => .ok (s.addHandles toAdd, none)
  | .removeHandles toRemove recursive => do
    let s ← s.removeHandles order toRemove recursive
    return (s, none)
  | .forEachHandleAddApi toProcess api st => .ok (s.forEachHandleAddApi toProcess api st, none)
  | .addHandleDependency handles parentHandle childState parentState =>
    .ok (s.addHandleDependency handles parentHandle childState parentState, none)
  | .forEachHandleAddModifyApi toProcess api =>
    .ok (s.forEachHandleAddModifyApi toProcess api, none)
  | .forEachHandleClearModifyApi toProcess => .ok (s.forEachHandleClearModifyApi toProcess, none)

/-- A choice of the standard library: sorting by insertion, and sets in the order kept. -/
def Order.plain : Order where
  sortHandles handles := handles.insertionSort fun u v => ¬ typeTagLess v u
  sortHandles_perm handles := List.perm_insertionSort _ handles
  sortHandles_sorted handles := by
    have : Std.Total fun u v : HandleWithState => ¬ typeTagLess v u := by
      constructor
      rintro ⟨g, a⟩ ⟨h, b⟩
      unfold typeTagLess
      by_cases hab : a = b
      · simp only [hab, ne_eq, not_true_eq_false, if_false]
        omega
      · simp only [ne_eq, hab, Ne.symm hab, not_false_eq_true, if_true]
        omega
    have : IsTrans HandleWithState fun u v => ¬ typeTagLess v u := by
      constructor
      rintro ⟨g, a⟩ ⟨h, b⟩ ⟨i, c⟩
      unfold typeTagLess
      cases a <;> cases b <;> cases c <;> simp [HandleState.toNat] <;> omega
    exact List.pairwise_insertionSort _ handles
  sortModifies mods := mods.insertionSort fun a b => ¬ b.order < a.order
  sortModifies_perm mods := List.perm_insertionSort _ mods
  sortModifies_sorted mods := by
    have : Std.Total fun a b : HandleModification => ¬ b.order < a.order := ⟨fun a b => by omega⟩
    have : IsTrans HandleModification fun a b => ¬ b.order < a.order := ⟨fun a b c => by omega⟩
    exact List.pairwise_insertionSort _ mods
  walk set := set.elems
  walk_perm _ := .refl _

end AndroidEmu.Vulkan
