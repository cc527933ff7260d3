import AndroidEmu.Base.PathUtils
import AndroidEmu.CS.Memory

/-!
# Reading tar archives

`TarReader` of `android/base/files/TarStream.cpp`. `extract` joins an entry's name to the target
directory and asks nothing of it.
-/

namespace AndroidEmu.Base

open CS PathUtils List

/-! ### Input streams -/

/-- A `std::istream`. A seek behind the end is an error for a string and none for a file. -/
structure Istream where
  bytes : List UInt8
  pos : ℕ
  eof : Bool
  fail : Bool
  isFile : Bool
  deriving DecidableEq, Repr

namespace Istream

def good (s : Istream) : Bool := !s.eof && !s.fail

/-- `read`, with the bytes that are counted by `gcount`. -/
def read (s : Istream) (n : ℕ) : Istream × List UInt8 :=
  let data := (s.bytes.drop s.pos).take n
  if s.good = false then ({ s with fail := true }, [])
  else if data.length < n then
    ({ s with pos := s.pos + data.length, eof := true, fail := true }, data)
  else ({ s with pos := s.pos + n }, data)

/-- `ignore`, which sets no other bit than that of the end. -/
def ignore (s : Istream) (n : ℕ) : Istream :=
  if s.good = false then { s with fail := true }
  else if s.bytes.length < s.pos + n then { s with pos := s.bytes.length, eof := true }
  else { s with pos := s.pos + n }

/-- `seekg` and the `tellg` before it, to a place that is an `int64_t`. -/
def seekg (s : Istream) (pos : ℤ) : Istream :=
  if s.good = true ∧ (s.pos : ℤ) = pos then s
  -- `tellg` makes the end an error and returns -1; `seekg` then only clears the end
  else if s.good = false then { s with eof := s.eof && pos == -1, fail := true }
  else if pos < 0 ∨ (s.isFile = false ∧ (s.bytes.length : ℤ) < pos) then { s with fail := true }
  else { s with pos := pos.toNat }

end Istream

/-! ### Headers -/

/-- `TarInfo`, without the names of owner and group, which are never set. -/
structure TarInfo where
  name : List UInt8
  mode : ℕ
  uid : ℕ
  gid : ℕ
  size : ℕ
  mtime : ℕ
  type : UInt8
  offset : ℕ
  valid : Bool
  deriving DecidableEq, Repr

def TarInfo.empty : TarInfo := ⟨[], 0o644, 0, 0, 0, 0, 0, 0, false⟩

/-- A `char` as a number. -/
def signedChar (b : UInt8) : ℤ := if b < 128 then b.toNat else (b.toNat : ℤ) - 256

def field (header : List UInt8) (offset length : ℕ) : List UInt8 :=
  (header.drop offset).take length

/-- The sum of the bytes up to the padding, with blanks in place of the sum. -/
def tarCksum (header : List UInt8) : ℕ :=
  ((8 * 32 + ((field header 0 148).map signedChar).sum +
    ((field header 156 344).map signedChar).sum)
    % 2 ^ 32).toNat

/-- `is_eof`. -/
def isEof (header : List UInt8) : Bool := header.all (· == 0)

/-- The `isspace` of the C locale. -/
def isSpace (c : UInt8) : Bool := c == 0x20 || (0x09 ≤ c && c ≤ 0x0d)

def isOctal (c : UInt8) : Bool := 0x30 ≤ c && c ≤ 0x37

/-- `std::stoull` in base 8. A number of this length does not pass the range of a `uint64_t`; a
string without one is an exception. -/
def stoull (s : List UInt8) : Checked ℕ :=
  let s := s.dropWhile isSpace
  let (negative, s) := match s with
    | 0x2d :: s => (true, s)
    | 0x2b :: s => (false, s)
    | s => (false, s)
  let digits := s.takeWhile isOctal
  if digits = [] then .error .exit
  else
    let value := digits.foldl (fun n c => n * 8 + (c.toNat - 0x30)) 0
    .ok (if negative then subNat 64 0 value else wrapNat 64 value)

/-- Octal digits, or a number in base 256 behind a byte of 128. There the bytes are `char`s and
extend their sign. -/
def otoi (s : List UInt8) : Checked ℕ :=
  match s with
  | 0x80 :: s => .ok (s.foldl (fun n c => wrapNat 64 (n <<< 8) ||| toUInt64 (signedChar c)) 0)
  | s => stoull s

/-- `roundUp` to whole blocks, of an `int64_t`. -/
def roundUp (n : ℤ) : Checked ℤ :=
  if 2 ^ 63 ≤ n + 512 then .error .overflow else .ok ((n + 511) / 512 * 512)

/-- A line of an extended header that matches the expression: a number, a key and a value. -/
def paxRecord (line : List UInt8) : Option (List UInt8 × List UInt8) :=
  let isDigit : UInt8 → Bool := fun c => 0x30 ≤ c && c ≤ 0x39
  match line.takeWhile isDigit, line.dropWhile isDigit with
  | _ :: _, 0x20 :: rest =>
    match rest.takeWhile (· != 0x3d), rest.dropWhile (· != 0x3d) with
    | c :: key, 0x3d :: value =>
      if value = [] ∨ 0x3d ∈ value then none else some (c :: key, value)
    | _, _ => none
  | _, _ => none

/-- `parsePaxHeader`, with the records in the order of the lines. A vector of negative size is an
exception. -/
def parsePaxHeader (src : Istream) (headerSize : ℤ) :
    Checked (Istream × List (List UInt8 × List UInt8)) :=
  if headerSize < 0 then .error .exit
  else do
    let (src, data) := src.read headerSize.toNat
    if src.good = false then return (src, [])
    let skip ← roundUp headerSize
    let records := (data.splitOnP (· == 0x0a)).filterMap paxRecord
    return (src.ignore (skip - headerSize).toNat, records)

def paxValue (records : List (List UInt8 × List UInt8)) (key : List UInt8) : Option (List UInt8) :=
  (records.reverse.find? (·.1 = key)).map Prod.snd

def pathKey : List UInt8 := [0x70, 0x61, 0x74, 0x68]

/-- The entry that a header describes; its name ends at the first NUL of the header. -/
def parseHeader (header : List UInt8) (offset : ℕ) : Checked TarInfo := do
  let size ← otoi (field header 124 12)
  let name := cStr header
  if name.length = header.length then .error .bufferOverrun
  let mode ← otoi (field header 100 8)
  let uid ← otoi (field header 108 8)
  let gid ← otoi (field header 116 8)
  let mtime ← otoi (field header 136 12)
  let type ← readAt header 156
  return ⟨name, wrapNat 32 mode, wrapNat 32 uid, wrapNat 32 gid, size, mtime, type, offset, false⟩

/-- A header that is not the end of the archive, as far as it is checked: the magic `ustar` and the
sum. -/
def acceptHeader (header : List UInt8) : Checked Bool :=
  if field header 257 5 ≠ [0x75, 0x73, 0x74, 0x61, 0x72] then .ok false
  else do
    let chksum ← otoi (field header 148 8)
    return tarCksum header = chksum

/-! ### The reader -/

/-- What `extract` does to the host's files. -/
inductive Effect
  | mkdir (path : List UInt8) (mode : ℕ)
  | truncate (path : List UInt8)
  | write (path data : List UInt8)
  deriving DecidableEq, Repr

def Effect.path : Effect → List UInt8
  | .mkdir path _ => path
  | .truncate path => path
  | .write path _ => path

/-- What the host answers to an extraction: whether it creates the directory, and whether it opens
the file. -/
structure Host where
  mkdirs : Bool
  opens : Bool
  deriving DecidableEq, Repr

/-- `TarReader`. Its state bits and messages are read by its callers only. The target directory is
a path of the host, which has no NUL in it. -/
structure TarReader where
  cwd : List UInt8
  cwd_ok : 0 ∉ cwd
  seeks : Bool

namespace TarReader

variable (r : TarReader)

/-- `TarReader::seekg`. -/
def seekg (src : Istream) (pos : ℕ) : Istream := if r.seeks then src.seekg (wrapInt64 pos) else src

/-- `next`, in at most so many nested calls for extended headers. A header that was not read because
of an earlier error is used uninitialized. -/
def next : ℕ → Istream → TarInfo → Checked (Istream × TarInfo)
  | 0, _, _ => .error .endless
  | rounds + 1, src, info => do
    let skip ← roundUp (wrapInt64 info.size)
    let (src, header) := (r.seekg src (toUInt64 (info.offset + skip))).read 512
    if src.eof then return (src, .empty)
    if src.fail then .error .uninitialized
    if isEof header then return (src, .empty)
    let accepted ← acceptHeader header
    if accepted = false then return (src, .empty)
    let found ← parseHeader header src.pos
    if found.type = 0x78 then
      let (src, pax) ← parsePaxHeader src (wrapInt found.size)
      let (src, found) ← next rounds src found
      if found.valid = false then return (src, found)
      return (src, { found with name := (paxValue pax pathKey).getD found.name })
    return (src, { found with valid := true })

/-- What is done to a file, if it is open. -/
def ifOpen (opens : Bool) (e : Effect) : List Effect := if opens then [e] else []

/-- The loop of `extract`: whole blocks are read, and what belongs to the file is written. -/
def copyBlocks (path : List UInt8) (opens : Bool) : ℕ → Istream → ℤ →
    Checked (Istream × List Effect)
  | 0, _, _ => .error .endless
  | rounds + 1, src, left => do
    let (src, data) := src.read 512
    if data = [] then return (src, [])
    let written := ifOpen opens (.write path (data.take left.toNat))
    if 0 < left - data.length then
      let (src, rest) ← copyBlocks path opens rounds src (left - data.length)
      return (src, written ++ rest)
    return (src, written)

/-- The rest of `extract`, for files and directories alike. -/
def extractFile (src : Istream) (info : TarInfo) (path : List UInt8) (opens : Bool) :
    Checked (Istream × List Effect) := do
  let opened := ifOpen opens (.truncate path)
  if info.size = 0 then return (src, opened)
  let (src, written) ← copyBlocks path opens (src.bytes.length + 1) src (wrapInt64 info.size)
  return (src, opened ++ written)

/-- `extract`, with what it does to the host's files. -/
def extract (src : Istream) (info : TarInfo) (host : Host) : Checked (Istream × List Effect) :=
  if info.valid = false then .ok (src, [])
  else
    let src := r.seekg src info.offset
    let path := cStr (join r.cwd info.name)
    if info.type = 5 then
      if host.mkdirs = false then .ok (src, [])
      else do
        let (src, effects) ← extractFile src info path host.opens
        return (src, .mkdir path info.mode :: effects)
    else extractFile src info path host.opens

/-- The operations: `first`, `next` from an entry, and `extract` of an entry. Entries are named by
when they were returned. -/
inductive Op
  | first
  | next (i : ℕ)
  | extract (i : ℕ) (host : Host)
  deriving DecidableEq, Repr

structure State where
  src : Istream
  entries : List TarInfo
  deriving DecidableEq, Repr

/-- An entry is read and returned. Positions of the stream that headers are read at do not repeat in
a run of nested calls that ends. -/
def yield (s : State) (info : TarInfo) : Checked (State × List Effect) := do
  let (src, found) ← r.next (s.src.bytes.length + 1) s.src info
  return (⟨src, s.entries ++ [found]⟩, [])

def step (s : State) : Op → Checked (State × List Effect)
  | .first => r.yield s .empty
  | .next i =>
    match s.entries[i]? with
    | none => .ok (s, [])
    | some info => r.yield s info
  | .extract i host =>
    match s.entries[i]? with
    | none => .ok (s, [])
    | some info => do
      let (src, effects) ← r.extract s.src info host
      return ({ s with src := src }, effects)

/-- The constructor of `TarReader`. -/
def start (archive : List UInt8) (isFile : Bool) : State := ⟨⟨archive, 0, false, false, isFile⟩, []⟩

end TarReader

/-! ### Staying inside -/

/-- The path is inside the target directory: the same place, or one below it. -/
def Inside (workDir : List (List UInt8)) (cwd path : List UInt8) : Prop :=
  location workDir cwd <+: location workDir path

instance (workDir : List (List UInt8)) (cwd path : List UInt8) :
    Decidable (Inside workDir cwd path) := inferInstanceAs (Decidable (_ <+: _))

/-- The name does not lead out of the target directory. If it is relative, after climbing by its
leading parent references it comes down the same way; if it is absolute, it spells the target
directory out. -/
def Harmless (workDir : List (List UInt8)) (cwd name : List UInt8) : Prop :=
  let target := location workDir cwd
  let route := net (moves (cStr name))
  if isAbsolute (cStr name) then target <+: route.names
  else target.drop (target.length - route.ups) <+: route.names

instance (workDir : List (List UInt8)) (cwd name : List UInt8) :
    Decidable (Harmless workDir cwd name) := inferInstanceAs (Decidable (ite _ _ _))

variable {workDir : List (List UInt8)} {cwd name : List UInt8}

theorem inside_iff_harmless (h : 0 ∉ cwd) :
    Inside workDir cwd (cStr (join cwd name)) ↔ Harmless workDir cwd name := by
  rw [Inside, location_join h, Harmless]
  by_cases habs : isAbsolute (cStr name) = true
  · simp only [habs, if_true]
    rw [walk_nil]
  · simp only [habs]
    exact prefix_walk_iff _ _

namespace TarReader

variable {r : TarReader}

theorem mem_ifOpen {opens : Bool} {e e' : Effect} :
    e ∈ ifOpen opens e' ↔ opens = true ∧ e = e' := by
  cases opens with
  | false => simp [ifOpen]
  | true => simp [ifOpen]

theorem read_progress (s : Istream) (n : ℕ) :
    (s.read n).1.bytes = s.bytes ∧ (s.read n).1.pos = s.pos + (s.read n).2.length ∧
      (s.read n).2.length ≤ s.bytes.length - s.pos := by
  have hlen : ((s.bytes.drop s.pos).take n).length = min n (s.bytes.length - s.pos) := by
    rw [length_take, length_drop]
  simp only [Istream.read]
  split_ifs with hgood hshort
  · exact ⟨rfl, rfl, Nat.zero_le _⟩
  · exact ⟨rfl, rfl, by dsimp only; omega⟩
  · exact ⟨rfl, by dsimp only; omega, by dsimp only; omega⟩

theorem copyBlocks_spec (path : List UInt8) (opens : Bool) (rounds : ℕ) :
    ∀ (src : Istream) (left : ℤ), src.bytes.length - src.pos < rounds →
      ∃ src' effects, copyBlocks path opens rounds src left = .ok (src', effects) ∧
        ∀ e ∈ effects, opens = true ∧ e.path = path := by
  induction rounds with
  | zero => exact fun src left h => by omega
  | succ rounds ih =>
    intro src left h
    obtain ⟨hbytes, hpos, hle⟩ := read_progress src 512
    simp only [copyBlocks]
    generalize src.read 512 = p at hbytes hpos hle
    obtain ⟨src1, data⟩ := p
    dsimp only at hbytes hpos hle ⊢
    by_cases hdata : data = []
    · rw [if_pos hdata]
      exact ⟨src1, [], rfl, by simp⟩
    have hlen : 0 < data.length := length_pos_iff.mpr hdata
    have hwritten : ∀ e ∈ ifOpen opens (.write path (data.take left.toNat)),
        opens = true ∧ e.path = path := by
      intro e he
      obtain ⟨hopen, rfl⟩ := mem_ifOpen.mp he
      exact ⟨hopen, rfl⟩
    split_ifs with hmore
    · -- at least a byte is gone
      have hfewer : src1.bytes.length - src1.pos < rounds := by
        rw [hbytes]
        omega
      obtain ⟨src2, rest, hrest, hpaths⟩ := ih src1 (left - data.length) hfewer
      refine ⟨src2, _, by rw [hrest]; rfl, ?_⟩
      intro e he
      rcases mem_append.mp he with he | he
      · exact hwritten e he
      · exact hpaths e he
    · exact ⟨src1, _, rfl, hwritten⟩

theorem extractFile_spec (src : Istream) (info : TarInfo) (path : List UInt8) (opens : Bool) :
    ∃ src' effects, extractFile src info path opens = .ok (src', effects) ∧
      (∀ e ∈ effects, opens = true ∧ e.path = path) ∧
      (opens = true → .truncate path ∈ effects) := by
  have hopened : ∀ e ∈ ifOpen opens (.truncate path), opens = true ∧ e.path = path := by
    intro e he
    obtain ⟨hopen, rfl⟩ := mem_ifOpen.mp he
    exact ⟨hopen, rfl⟩
  have hmem : opens = true → .truncate path ∈ ifOpen opens (.truncate path) :=
    fun hopen => mem_ifOpen.mpr ⟨hopen, rfl⟩
  unfold extractFile
  split_ifs with hsize
  · exact ⟨src, _, rfl, hopened, hmem⟩
  · obtain ⟨src', written, hcopy, hpaths⟩ :=
      copyBlocks_spec path opens (src.bytes.length + 1) src (wrapInt64 info.size) (by omega)
    refine ⟨src', _, by rw [hcopy]; rfl, ?_, fun h => mem_append_left _ (hmem h)⟩
    intro e he
    rcases mem_append.mp he with he | he
    · exact hopened e he
    · exact hpaths e he

/-- The extraction of an entry creates something: the directory for a directory, the file
otherwise. -/
def Creates (info : TarInfo) (host : Host) : Prop :=
  info.valid = true ∧ (if info.type = 5 then host.mkdirs else host.opens) = true

instance (info : TarInfo) (host : Host) : Decidable (Creates info host) :=
  inferInstanceAs (Decidable (_ ∧ _))

theorem extract_effects (src : Istream) (info : TarInfo) (host : Host) :
    ∃ src' effects, r.extract src info host = .ok (src', effects) ∧
      (∀ e ∈ effects, e.path = cStr (join r.cwd info.name)) ∧
      (effects ≠ [] ↔ Creates info host) := by
  set path := cStr (join r.cwd info.name) with hpath
  by_cases hvalid : info.valid = false
  · exact ⟨src, [], if_pos hvalid, by simp, by simp [Creates, hvalid]⟩
  have hvalid' : info.valid = true := by simpa using hvalid
  obtain ⟨src', effects, hfile, hpaths, hopens⟩ :=
    extractFile_spec (r.seekg src info.offset) info path host.opens
  simp only [extract, Creates, hvalid', ← hpath, hfile]
  by_cases htype : info.type = 5
  · simp only [if_pos htype]
    by_cases hmkdir : host.mkdirs = false
    · exact ⟨_, [], if_pos hmkdir, by simp, by simp [hmkdir]⟩
    refine ⟨src', _, if_neg hmkdir, ?_, by simpa using hmkdir⟩
    intro e he
    rcases mem_cons.mp he with rfl | he
    · rfl
    · exact (hpaths e he).2
  · simp only [if_neg htype]
    refine ⟨src', effects, rfl, fun e he => (hpaths e he).2, ?_⟩
    constructor
    · intro hne
      obtain ⟨e, he⟩ := exists_mem_of_ne_nil effects hne
      exact ⟨trivial, (hpaths e he).1⟩
    · intro hopen
      exact ne_nil_of_mem (hopens hopen.2)

/-- All that an operation creates or writes is inside the target directory. -/
def Behaves (r : TarReader) (workDir : List (List UInt8)) (s : State) (op : Op) : Prop :=
  ∀ s' effects, r.step s op = .ok (s', effects) → ∀ e ∈ effects, Inside workDir r.cwd e.path

/-- An entry that is extracted has a harmless name, if something is created for it. -/
def Proper (r : TarReader) (workDir : List (List UInt8)) (s : State) : Op → Prop
  | .extract i host => ∀ info, s.entries[i]? = some info → Creates info host →
      Harmless workDir r.cwd info.name
  | _ => True

theorem yield_effects {s s' : State} {info : TarInfo} {effects : List Effect}
    (h : r.yield s info = .ok (s', effects)) : effects = [] := by
  obtain ⟨_, _, hrest⟩ := Checked.bind_eq_ok.mp h
  cases hrest
  rfl

theorem behaves_iff_proper (workDir : List (List UInt8)) (s : State) (op : Op) :
    r.Behaves workDir s op ↔ r.Proper workDir s op := by
  cases op with
  | first =>
    refine iff_of_true ?_ trivial
    intro s' effects hstep
    rw [yield_effects hstep]
    simp
  | next i =>
    refine iff_of_true ?_ trivial
    intro s' effects hstep
    simp only [step] at hstep
    split at hstep
    · cases hstep
      simp
    · rw [yield_effects hstep]
      simp
  | extract i host =>
    unfold Behaves
    simp only [Proper, step]
    cases hinfo : s.entries[i]? with
    | none => simp
    | some info =>
      obtain ⟨src', effects, hextract, hpaths, hcreates⟩ := r.extract_effects s.src info host
      simp only [hextract, Checked.ok_bind, Checked.pure_eq_ok]
      constructor
      · rintro h _ ⟨⟩ hsome
        obtain ⟨e, he⟩ := exists_mem_of_ne_nil effects (hcreates.mpr hsome)
        have hinside := h _ _ rfl e he
        rwa [hpaths e he, inside_iff_harmless r.cwd_ok] at hinside
      · rintro h s' effects' hstep e he
        cases hstep
        rw [hpaths e he, inside_iff_harmless r.cwd_ok]
        exact h info rfl (hcreates.mp (ne_nil_of_mem he))

/-- For every archive and every sequence of operations, all that is created or written is inside
the target directory iff the entries that are extracted have harmless names. -/
theorem run_inside_iff (r : TarReader) (workDir : List (List UInt8)) (archive : List UInt8)
    (isFile : Bool) (ops : List Op) : Meets r.step (r.Behaves workDir) (start archive isFile) ops ↔
      Meets r.step (r.Proper workDir) (start archive isFile) ops :=
  meets_congr (fun _ => True) ops (fun s op _ _ => behaves_iff_proper workDir s op)
    (fun _ _ _ _ _ _ _ _ => trivial) trivial

/-- An entry for an empty file with the name `../x`: the name, five numbers, the sum, the type and
the magic, each filled up with NULs. -/
def parentEntry : List UInt8 :=
  let zeros : ℕ → List UInt8 := fun n => List.replicate n 0
  let digits : ℕ → List UInt8 := fun n => List.replicate n 0x30
  [0x2e, 0x2e, 0x2f, 0x78] ++ zeros 96 ++
    (digits 4 ++ [0x36, 0x34, 0x34] ++ zeros 1) ++ (digits 7 ++ zeros 1) ++ (digits 7 ++ zeros 1) ++
    (digits 11 ++ zeros 1) ++ (digits 11 ++ zeros 1) ++
    (digits 2 ++ [0x36, 0x31, 0x36, 0x30] ++ zeros 2) ++ zeros 101 ++
    [0x75, 0x73, 0x74, 0x61, 0x72, 0x20] ++ zeros 249

/-- The entry is extracted next to the target directory `/t`. -/
theorem parent_reference_escapes : let r : TarReader := ⟨[0x2f, 0x74], by decide, false⟩
    let path : List UInt8 := [0x2f, 0x74, 0x2f, 0x2e, 0x2e, 0x2f, 0x78]
    (run r.step (start parentEntry true) [.first, .extract 0 ⟨true, true⟩]).1 =
        [[], [.truncate path]] ∧
      location [] path = [[0x78]] ∧ ¬ Inside [] r.cwd path := by
  decide +kernel

end TarReader

end AndroidEmu.Base
