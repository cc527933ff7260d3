import AndroidEmu.CS.Memory
import AndroidEmu.CS.OrderedMap

/-!
# Gap trackers

`android/snapshot/GapTracker.cpp`. `GenericGapTracker` has a map from the start of a gap to its
attributes, which its size determines, and one from a size to the gaps of that size. An iterator to
a gap is its start. `OneSizeGapTracker` is a queue of gaps of one size. Operations are locked, so
they are steps.
-/

namespace AndroidEmu.RamSnapshot

open CS

/-! ### Gaps of any size -/

/-- A gap: its start and the size kept for it. -/
abbrev Gap := ℤ × ℤ

structure GenericGapTracker where
  byStart : List Gap := []
  bySize : List (ℤ × List ℤ) := []
  empty : Bool := true
  deriving DecidableEq

namespace GenericGapTracker

/-- The list of a size is erased with its last gap. -/
def eraseFromBySize (t : GenericGapTracker) (pos : Gap) : Checked GenericGapTracker :=
  match OrderedMap.get t.bySize pos.2 with
  | none => .error .useAfterFree
  | some starts =>
    if starts.length = 1 then .ok { t with bySize := OrderedMap.erase t.bySize pos.2 }
    else if pos.1 ∈ starts then
      .ok { t with bySize := OrderedMap.set t.bySize pos.2 (starts.erase pos.1) }
    else .error .useAfterFree

/-- `GenericGapTracker::erase`. -/
def erase (t : GenericGapTracker) (pos : Gap) : Checked GenericGapTracker := do
  let t ← t.eraseFromBySize pos
  return { t with byStart := OrderedMap.erase t.byStart pos.1 }

/-- The end of `addLocked` and of `allocate`: a gap goes to the end of the list of its size,
and its attributes are filled in. -/
def enter (t : GenericGapTracker) (start size : ℤ) : GenericGapTracker :=
  { t with
    byStart := OrderedMap.set t.byStart start size
    bySize := OrderedMap.set t.bySize size ((OrderedMap.get t.bySize size).getD [] ++ [start]) }

def allocate (t : GenericGapTracker) (size : ℤ) : Checked (GenericGapTracker × Option ℤ) :=
  if t.empty then .ok (t, none)
  else match OrderedMap.lowerBound t.bySize size with
  | none => .ok (t, none)
  | some (_, []) => .error .assertion
  | some (rangeSize, pos :: _) =>
    match OrderedMap.get t.byStart pos with
    | none => .error .useAfterFree
    | some attributes => do
      let t ← t.erase (pos, attributes)
      if size < rangeSize then
        return (t.enter (wrapInt64 (pos + size)) (wrapInt (rangeSize - size)), some pos)
      else return ({ t with empty := t.empty || t.byStart.isEmpty }, some pos)

/-- The first part of `addLocked`: the gap before the new one, if it ends at its start, is
joined with it. The result is the start and the size of the new gap. -/
def joinPrevious (t : GenericGapTracker) (start size : ℤ) : Checked (GenericGapTracker × Gap) :=
  match OrderedMap.before t.byStart start with
  | none => .ok (t, start, size)
  | some prev =>
    if wrapInt64 (prev.1 + prev.2) = start then do
      let t ← t.eraseFromBySize prev
      return (t, prev.1, wrapInt (size + prev.2))
    else .ok (t, start, size)

/-- The second part of `addLocked`: the gap after the new one, if it starts at its end, is
joined with it. -/
def joinNext (t : GenericGapTracker) (start size : ℤ) : Checked (GenericGapTracker × ℤ) :=
  match OrderedMap.after t.byStart start with
  | none => .ok (t, size)
  | some next =>
    if wrapInt64 (start + size) = next.1 then do
      let t ← t.erase next
      return (t, wrapInt (size + next.2))
    else .ok (t, size)

/-- `GenericGapTracker::addLocked`. -/
def addLocked (t : GenericGapTracker) (start size : ℤ) : Checked GenericGapTracker := do
  let wasEmpty := t.byStart.isEmpty
  let (t, start, size) ← t.joinPrevious start size
  let (t, size) ← t.joinNext start size
  let t := t.enter start size
  return { t with empty := t.empty && !wasEmpty }

def add (t : GenericGapTracker) (start size : ℤ) : Checked GenericGapTracker :=
  if size ≤ 0 then .ok t else t.addLocked start size

def wastedSpace (t : GenericGapTracker) : ℤ :=
  if t.empty then 0 else wrapInt64 (t.bySize.map fun p => p.1 * (p.2.length : ℤ)).sum

end GenericGapTracker

/-! ### Gaps of one size -/

structure OneSizeGapTracker where
  gapStarts : List ℤ := []
  currentPos : ℕ := 0
  size : ℤ := 0
  empty : Bool := true
  deriving DecidableEq

namespace OneSizeGapTracker

def allocate (t : OneSizeGapTracker) (size : ℤ) : Checked (OneSizeGapTracker × Option ℤ) :=
  if t.empty then .ok (t, none)
  else if t.currentPos = t.gapStarts.length then .ok (t, none)
  else do
    let t := { t with size := if t.size = 0 then size else t.size }
    let res ← readAt t.gapStarts t.currentPos
    -- the position is an `int32_t`
    if 2 ^ 31 ≤ t.currentPos + 1 then .error .overflow
    else
      let t := { t with currentPos := t.currentPos + 1 }
      if t.currentPos = t.gapStarts.length then
        return ({ t with empty := true, gapStarts := [], currentPos := 0 }, some res)
      else return (t, some res)

def add (t : OneSizeGapTracker) (start size : ℤ) : OneSizeGapTracker where
  gapStarts := t.gapStarts ++ [start]
  currentPos := t.currentPos
  size := if t.size = 0 then size else t.size
  empty := if t.currentPos = t.gapStarts.length then false else t.empty

def wastedSpace (t : OneSizeGapTracker) : ℤ :=
  if t.empty then 0 else wrapInt64 (t.size * (t.gapStarts.length - t.currentPos))

end OneSizeGapTracker

/-! ### Operations -/

inductive GapOp
  | allocate (size : ℤ)
  | add (start size : ℤ)
  | wastedSpace
  deriving DecidableEq

inductive GapOutput
  | position (pos : Option ℤ)
  | nothing
  | space (bytes : ℤ)
  deriving DecidableEq

def GenericGapTracker.step (t : GenericGapTracker) : GapOp → Checked (GenericGapTracker × GapOutput)
  | .allocate size => do
    let (t, pos) ← t.allocate size
    return (t, .position pos)
  | .add start size => do
    let t ← t.add start size
    return (t, .nothing)
  | .wastedSpace => .ok (t, .space t.wastedSpace)

def OneSizeGapTracker.step (t : OneSizeGapTracker) : GapOp → Checked (OneSizeGapTracker × GapOutput)
  | .allocate size => do
    let (t, pos) ← t.allocate size
    return (t, .position pos)
  | .add start size => .ok (t.add start size, .nothing)
  | .wastedSpace => .ok (t, .space t.wastedSpace)

end AndroidEmu.RamSnapshot
