import Ossim.Machine.Words
import Ossim.Mem.FirstFit

/-!
# The configuration file

`read_config` (`os.c`) reads what the simulator is to run: the time slot, the numbers of CPUs and
of processes, the sizes of the memory devices, and for each process when it starts, the name of
its program and its priority.

A file whose words are those of a configuration is read back in any layout, as long as no name is
too long for the arrays of 100 characters (`readConfig_iff`). A file without the line of sizes,
as four of the files in `input` are, is not (`readConfig_legacy`): the first number of the first
process is taken for the size of the memory, and its name ends every call after that.

## The model

As in `Loader/Load`: the file is the list of its characters, and no call's result is looked at.
The static variables start at 0. `proc`, `start_time` and `prio` start with nothing stored in them;
`strcat` from `proc` then, or past the end of an array, has no value (`none`). A priority that is
not stored is kept as such: `read_config` does not look at it.

What is *not* modelled: a `malloc` that fails; `MM_FIXED_MEMSZ`, which is not defined.
-/

namespace Ossim.Boot

open Machine.Scan Mem

/-- `PAGING_MAX_MMSWP`. -/
abbrev pagingMaxMmswp : ℕ := 4

/-- The number of characters of `proc` and of each `ld_processes.path[i]`. -/
abbrev pathSize : ℕ := 100

/-- A process of `ld_processes`. -/
structure LdProcess where
  /-- `path[i]`. -/
  path : List Char
  /-- `start_time[i]`. -/
  startTime : Addr
  /-- `prio[i]`, if something is stored there. -/
  prio : Option Addr
  deriving DecidableEq

/-- What `read_config` stores. -/
structure Config where
  /-- `time_slot`. -/
  timeSlot : Word
  /-- `num_cpus`. -/
  numCpus : Word
  /-- `num_processes`. -/
  numProcesses : Word
  /-- `memramsz`. -/
  memramsz : Addr
  /-- `memswpsz`. -/
  memswpsz : List Addr
  /-- `ld_processes`. -/
  ldProcesses : List LdProcess
  deriving DecidableEq

/-- The loop over `memswpsz`, with `n` turns to go. A size that is not stored stays 0. -/
def readSizes : ℕ → List Char → List Addr × List Char
  | 0, s => ([], s)
  | n + 1, s => ((number 64 s).1.getD 0 :: (readSizes n (number 64 s).2).1,
      (readSizes n (number 64 s).2).2)

/-- `path[i]`, where `proc` is what `fscanf` has stored. -/
def procPath (proc : List Char) : List Char := "input/proc/".toList ++ cString proc

/-- The word fits `proc`, and the path `path[i]`. -/
def NameFits (proc : List Char) : Prop :=
  proc.length < pathSize ∧ (procPath proc).length < pathSize

instance (proc : List Char) : Decidable (NameFits proc) := inferInstanceAs (Decidable (_ ∧ _))

/-- One turn of the last loop. -/
def readProcess (s : List Char) : Option (LdProcess × List Char) :=
  match number 64 s with
  | (none, _) => none
  | (some startTime, s) =>
    match word (skipSpace s) with
    | none => none
    | some (proc, s) =>
      if NameFits proc then
        match number 64 (skipSpace s) with
        | (none, s) => some (⟨procPath proc, startTime, none⟩, s)
        | (some prio, s) => some (⟨procPath proc, startTime, some prio⟩, skipSpace s)
      else none

/-- The last loop, with `n` turns to go. -/
def readProcesses : ℕ → List Char → Option (List LdProcess)
  | 0, _ => some []
  | n + 1, s => do
    let (proc, s) ← readProcess s
    let procs ← readProcesses n s
    some (proc :: procs)

/-- `read_config`. -/
def readConfig (file : List Char) : Option Config := do
  let (ints, s) := convert (integer 64 32) 3 file
  let (ram, s) := convert (number 64) 1 s
  let (memswpsz, s) := readSizes pagingMaxMmswp s
  let numProcesses := ints.getD 2 0
  let ldProcesses ← readProcesses numProcesses.toInt.toNat (skipSpace s)
  some ⟨ints.getD 0 0, ints.getD 1 0, numProcesses, ram.getD 0 0, memswpsz, ldProcesses⟩

/-! ### Configurations -/

/-- The line of a process. -/
structure Line where
  /-- When it starts. -/
  startTime : Addr
  /-- The name of its program. -/
  name : List Char
  /-- Its priority. -/
  prio : Addr

/-- A configuration. -/
structure File where
  /-- The time slot. -/
  timeSlot : Word
  /-- The number of CPUs. -/
  numCpus : Word
  /-- The size of the memory. -/
  memramsz : Addr
  /-- The sizes of the swap devices. -/
  memswpsz : List Addr
  /-- The processes. -/
  lines : List Line
  /-- There are as many swap devices as the simulator has. -/
  length_memswpsz : memswpsz.length = pagingMaxMmswp
  /-- An `int` counts the processes. -/
  length_lines : lines.length < 2 ^ 31

/-- The words of a line. -/
def Line.words (l : Line) : List (List Char) :=
  [decimal l.startTime.toNat, l.name, decimal l.prio.toNat]

/-- The words of the first line. -/
def File.header (c : File) : List (List Char) :=
  [c.timeSlot, c.numCpus, BitVec.ofNat 32 c.lines.length].map fun n => decimal n.toNat

/-- The words of the line of sizes. -/
def File.sizes (c : File) : List (List Char) :=
  (c.memramsz :: c.memswpsz).map fun n => decimal n.toNat

/-- The words of a configuration file. -/
def File.words (c : File) : List (List Char) := c.header ++ (c.sizes ++ c.lines.flatMap Line.words)

/-- What `read_config` makes of a line. -/
def Line.ldProcess (l : Line) : LdProcess := ⟨procPath l.name, l.startTime, some l.prio⟩

/-- What it makes of a configuration. -/
def File.config (c : File) : Config :=
  ⟨c.timeSlot, c.numCpus, BitVec.ofNat 32 c.lines.length, c.memramsz, c.memswpsz,
    c.lines.map Line.ldProcess⟩

/-! ### Reading a configuration -/

variable {s : List Char} {ws : List (List Char)} {l : Line} {ls : List Line} {c : File}

theorem readSizes_words (vs : List Addr)
    (h : words s = vs.map (fun v => decimal v.toNat) ++ ws) :
    (readSizes vs.length s).1 = vs ∧ words (readSizes vs.length s).2 = ws := by
  induction vs generalizing s with
  | nil => exact ⟨rfl, h⟩
  | cons v vs ih =>
    obtain ⟨t, ht, hwords⟩ := (reads_number v).of_words h
    obtain ⟨hrest, hleft⟩ := ih hwords
    rw [List.length_cons, readSizes, ht]
    exact ⟨congrArg (v :: ·) hrest, hleft⟩

theorem readProcess_words (hfits : NameFits l.name) (h : words s = l.words ++ ws) :
    ∃ t, readProcess s = some (l.ldProcess, t) ∧ words t = ws := by
  obtain ⟨t, ht, hwords⟩ := (reads_number l.startTime).of_words h
  obtain ⟨u, hu, hwords⟩ := word_of_words (s := skipSpace t) ((words_skipSpace t).trans hwords)
  obtain ⟨v, hv, hwords⟩ := (reads_number l.prio).of_words (s := skipSpace u)
    ((words_skipSpace u).trans hwords)
  refine ⟨skipSpace v, ?_, (words_skipSpace v).trans hwords⟩
  simp only [readProcess, ht, hu, if_pos hfits, hv, Line.ldProcess]

theorem readProcess_of_long (hfits : ¬ NameFits l.name) (h : words s = l.words ++ ws) :
    readProcess s = none := by
  obtain ⟨t, ht, hwords⟩ := (reads_number l.startTime).of_words h
  obtain ⟨u, hu, -⟩ := word_of_words (s := skipSpace t) ((words_skipSpace t).trans hwords)
  simp only [readProcess, ht, hu, if_neg hfits]

theorem readProcesses_words (h : words s = ls.flatMap Line.words ++ ws) :
    readProcesses ls.length s =
      if ∀ l ∈ ls, NameFits l.name then some (ls.map Line.ldProcess) else none := by
  induction ls generalizing s with
  | nil => simp [readProcesses]
  | cons l ls ih =>
    rw [List.flatMap_cons, List.append_assoc] at h
    by_cases hfits : NameFits l.name
    · obtain ⟨t, ht, hwords⟩ := readProcess_words hfits h
      simp only [List.length_cons, readProcesses, ht, ih hwords, List.forall_mem_cons, hfits,
        true_and, Option.bind_eq_bind, Option.bind_some, List.map_cons]
      split_ifs <;> rfl
    · simp [readProcesses, readProcess_of_long hfits h, hfits]

theorem toNat_length_lines (c : File) :
    (BitVec.ofNat 32 c.lines.length).toInt.toNat = c.lines.length := by
  have hlt := c.length_lines
  have hnat : (BitVec.ofNat 32 c.lines.length).toNat = c.lines.length := by
    rw [BitVec.toNat_ofNat]
    omega
  rw [BitVec.toInt_eq_toNat_of_lt (by omega), hnat, Int.toNat_natCast]

/-- What `read_config` has when it comes to the line of sizes. -/
theorem convert_header (h : words s = c.header ++ ws) :
    (convert (integer 64 32) 3 s).1 =
        [c.timeSlot, c.numCpus, BitVec.ofNat 32 c.lines.length] ∧
      words (convert (integer 64 32) 3 s).2 = ws :=
  convert_words [c.timeSlot, c.numCpus, BitVec.ofNat 32 c.lines.length]
    (fun n _ => reads_integer (by omega) n) h

/-- What `read_config` makes of a configuration file: what comes after the last process, and where
white space is and how much, makes no difference. -/
theorem readConfig_eq (c : File) (file : List Char) (rest : List (List Char))
    (h : words file = c.words ++ rest) :
    readConfig file = if ∀ l ∈ c.lines, NameFits l.name then some c.config else none := by
  rw [File.words, List.append_assoc, List.append_assoc] at h
  obtain ⟨hints, hwords⟩ := convert_header h
  obtain ⟨hram, hwords⟩ := convert_words [c.memramsz] (fun v _ => reads_number v) hwords
  obtain ⟨hswp, hwords⟩ := readSizes_words c.memswpsz hwords
  rw [c.length_memswpsz] at hswp hwords
  have hprocs := readProcesses_words ((words_skipSpace _).trans hwords)
  simp only [List.length_singleton] at hram hswp hprocs
  simp only [readConfig, hints, hram, hswp, List.getD_cons_zero, List.getD_cons_succ,
    toNat_length_lines, hprocs]
  split_ifs <;> rfl

/-- **A configuration is read back, in any layout**, if and only if the names fit: from every file
that begins with its words, `read_config` stores it, unless a name is too long for its array. -/
theorem readConfig_iff (c : File) (file : List Char) (rest : List (List Char))
    (h : words file = c.words ++ rest) :
    readConfig file = some c.config ↔ ∀ l ∈ c.lines, NameFits l.name := by
  rw [readConfig_eq c file rest h]
  split_ifs with hfits
  · exact iff_of_true rfl hfits
  · exact iff_of_false (by simp) hfits

/-- One swap device, as in most files of `input`. -/
def oneSwap : List Addr := [16777216, 0, 0, 0]

theorem length_oneSwap : oneSwap.length = pagingMaxMmswp := rfl

/-- Two CPUs and the first of two processes, as in the file `os_0_mlq_paging`, which has a line
more than it says. -/
def mlqPaging : File where
  timeSlot := 6
  numCpus := 2
  memramsz := 268435456
  memswpsz := oneSwap
  lines := [⟨0, "p0s".toList, 0⟩, ⟨1, "p1s".toList, 15⟩]
  length_memswpsz := length_oneSwap
  length_lines := by decide

theorem readConfig_iff_mlqPaging :
    readConfig "6 2 2\n268435456 16777216 0 0 0\n0 p0s  0\n\n1 p1s\t15\n3 p1s 0".toList =
        some mlqPaging.config ↔
      ∀ l ∈ mlqPaging.lines, NameFits l.name :=
  readConfig_iff mlqPaging _ ["3".toList, "p1s".toList, "0".toList] (by decide +kernel)

/-! ### Files without the line of sizes -/

/-- The words of a file without the line of sizes. -/
def File.legacyWords (c : File) : List (List Char) := c.header ++ c.lines.flatMap Line.words

/-- A name that is no number. -/
def NoNumber (name : List Char) : Prop :=
  ∀ c ∈ name.head?, c.isDigit = false ∧ c ≠ '-' ∧ c ≠ '+'

instance (name : List Char) : Decidable (NoNumber name) :=
  match name with
  | [] => isTrue (by simp [NoNumber])
  | c :: _ =>
    decidable_of_iff (c.isDigit = false ∧ c ≠ '-' ∧ c ≠ '+') (by simp [NoNumber])

variable {x : List Char}

/-- The sizes stay 0, and the name where it is. -/
theorem readSizes_of_name (n : ℕ) (hx : NoNumber x) (h : words s = x :: ws) :
    words (readSizes n s).2 = x :: ws := by
  induction n generalizing s with
  | zero => exact h
  | succ n ih =>
    obtain ⟨t, ht, hwords⟩ := @number_of_word s x ws 64 h hx
    rw [readSizes, ht]
    exact ih hwords

theorem readProcesses_of_name {n : ℕ} (hn : 0 < n) (hx : NoNumber x) (h : words s = x :: ws) :
    readProcesses n s = none := by
  obtain ⟨n, rfl⟩ : ∃ m, n = m + 1 := ⟨n - 1, by omega⟩
  obtain ⟨t, ht, -⟩ := @number_of_word s x ws 64 h hx
  simp [readProcesses, readProcess, ht]

/-- **A file without the line of sizes is not read**, if its first process has a name that is no
number: the name that `read_config` appends to the path of this process was never stored. -/
theorem readConfig_legacy (c : File) (file : List Char) (rest : List (List Char)) (l : Line)
    (hl : c.lines.head? = some l) (hname : NoNumber l.name)
    (h : words file = c.legacyWords ++ rest) : readConfig file = none := by
  obtain ⟨ls, hls⟩ := List.head?_eq_some_iff.mp hl
  have hpos : 0 < c.lines.length := by simp [hls]
  rw [File.legacyWords, List.append_assoc] at h
  obtain ⟨hints, hwords⟩ := convert_header h
  rw [hls, List.flatMap_cons, List.append_assoc] at hwords
  obtain ⟨-, hwords⟩ := convert_words [l.startTime] (fun v _ => reads_number v) hwords
  have hsizes := readSizes_of_name pagingMaxMmswp hname hwords
  have hprocs := readProcesses_of_name hpos hname ((words_skipSpace _).trans hsizes)
  simp only [List.length_singleton] at hprocs
  simp [readConfig, hints, toNat_length_lines, hprocs]

/-- The file `sched`, with the four processes of `input/sched`. -/
def sched : File where
  timeSlot := 4
  numCpus := 2
  memramsz := 0
  memswpsz := [0, 0, 0, 0]
  lines := [⟨0, "p2s".toList, 0⟩, ⟨1, "p1s".toList, 1⟩, ⟨3, "p2s".toList, 1⟩, ⟨4, "p3s".toList, 0⟩]
  length_memswpsz := rfl
  length_lines := by decide

theorem readConfig_legacy_sched :
    readConfig "4 2 4\n0 p2s 0\n1 p1s 1\n3 p2s 1\n4 p3s 0\n".toList = none :=
  readConfig_legacy sched _ [] ⟨0, "p2s".toList, 0⟩ rfl (by decide) (by decide +kernel)

end Ossim.Boot
