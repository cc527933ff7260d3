import AndroidEmu.CS.Walk

/-!
# Paths

`aemu/base/PathUtils.cpp`, for hosts with POSIX paths. `join` keeps its second path as it is: an
absolute one replaces the first, and parent references in it climb out of it.
-/

namespace AndroidEmu.Base

open CS List

namespace PathUtils

/-- `PathUtils::isDirSeparator`. -/
def isDirSeparator (c : UInt8) : Bool := c == 0x2f

/-- `PathUtils::rootPrefixSize`. -/
def rootPrefixSize : List UInt8 → ℕ
  | [] => 0
  | c :: _ => if isDirSeparator c then 1 else 0

/-- `PathUtils::isAbsolute`. -/
def isAbsolute (path : List UInt8) : Bool := rootPrefixSize path != 0

/-- A string as its `c_str` is read. -/
def cStr (s : List UInt8) : List UInt8 := s.takeWhile (· != 0)

/-- `PathUtils::join`. -/
def join (path1 path2 : List UInt8) : List UInt8 :=
  if path1 = [] then path2
  else if path2 = [] then path1
  else if isAbsolute (cStr path2) then path2
  else if rootPrefixSize path1 < path1.length ∧ path1.getLast?.any isDirSeparator = false then
    path1 ++ 0x2f :: path2
  else path1 ++ path2

end PathUtils

open PathUtils

/-! ### Where paths lead -/

/-- A component of a path as a move: the host gives meaning to `.` and `..`. -/
def component (name : List UInt8) : Move (List UInt8) :=
  if name = [0x2e] then .stay else if name = [0x2e, 0x2e] then .up else .down name

def moves (path : List UInt8) : List (Move (List UInt8)) :=
  ((path.splitOnP isDirSeparator).filter (· ≠ [])).map component

/-- The place that a path names for a process in the given working directory. -/
def location (workDir : List (List UInt8)) (path : List UInt8) : List (List UInt8) :=
  walk (if isAbsolute path then [] else workDir) (moves path)

theorem moves_append_slash (p q : List UInt8) : moves (p ++ 0x2f :: q) = moves p ++ moves q := by
  simp only [moves]
  rw [splitOnP_append_cons p q (by rfl), filter_append, map_append]

@[simp] theorem moves_nil : moves [] = [] := rfl

variable {workDir : List (List UInt8)} {p q : List UInt8}

theorem cStr_append (h : 0 ∉ p) (q : List UInt8) : cStr (p ++ q) = p ++ cStr q := by
  apply takeWhile_append_of_pos
  intro c hc
  have hne : c ≠ 0 := fun h0 => h (h0 ▸ hc)
  simpa using hne

theorem cStr_eq_self (h : 0 ∉ p) : cStr p = p := by
  have := cStr_append h []
  simpa [cStr] using this

theorem isAbsolute_append (hne : p ≠ []) (q : List UInt8) : isAbsolute (p ++ q) = isAbsolute p := by
  cases p with
  | nil => exact absurd rfl hne
  | cons c p => rfl

theorem exists_eq_append_slash (hne : p ≠ [])
    (h : ¬ (rootPrefixSize p < p.length ∧ p.getLast?.any isDirSeparator = false)) :
    ∃ p', p = p' ++ [0x2f] := by
  obtain hnil | ⟨p', c, rfl⟩ := eq_nil_or_concat' p
  · exact absurd hnil hne
  refine ⟨p', ?_⟩
  by_cases hc : isDirSeparator c = true
  · have hslash : c = 0x2f := by simpa [isDirSeparator] using hc
    rw [hslash]
  -- then the path is longer than its root
  exfalso
  apply h
  refine ⟨?_, by simpa using hc⟩
  cases p' with
  | nil => simp [rootPrefixSize, hc]
  | cons d p' =>
    simp only [cons_append, rootPrefixSize, length_cons, length_append]
    split_ifs <;> omega

theorem location_append_slash (hne : p ≠ []) :
    location workDir (p ++ [0x2f]) = location workDir p := by
  simp only [location]
  rw [isAbsolute_append hne, moves_append_slash, moves_nil, append_nil]

theorem location_append (p q : List UInt8) :
    location workDir (p ++ [0x2f] ++ q) = walk (location workDir (p ++ [0x2f])) (moves q) := by
  simp only [location]
  rw [isAbsolute_append (by simp), ← walk_append, append_assoc, singleton_append,
    moves_append_slash, moves_append_slash, moves_nil, append_nil]

/-- The place of a joined path is reached from that of the first by the components of the second,
unless this one is absolute. -/
theorem location_join (h : 0 ∉ p) (q : List UInt8) : location workDir (cStr (join p q)) =
      walk (if isAbsolute (cStr q) then [] else location workDir p) (moves (cStr q)) := by
  by_cases hp : p = []
  · subst hp
    rfl
  by_cases hq : q = []
  · subst hq
    rw [join, if_neg hp, if_pos rfl, cStr_eq_self h]
    rfl
  by_cases habs : isAbsolute (cStr q) = true
  · rw [join, if_neg hp, if_neg hq, if_pos habs, if_pos habs, location, if_pos habs]
  rw [join, if_neg hp, if_neg hq, if_neg habs, if_neg habs]
  split_ifs with hslash
  · have hzero : (0 : UInt8) ∉ p ++ [0x2f] := by simpa using h
    rw [show p ++ 0x2f :: q = p ++ [0x2f] ++ q by simp, cStr_append hzero, location_append,
      location_append_slash hp]
  · -- the first path ends in a slash itself
    obtain ⟨p', rfl⟩ := exists_eq_append_slash hp hslash
    rw [cStr_append h, location_append]

end AndroidEmu.Base
