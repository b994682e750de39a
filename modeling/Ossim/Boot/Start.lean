import Ossim.Boot.Config
import Ossim.Loader.Complete
import Ossim.Loader.RoundTrip
import Ossim.Simulator.Ownership

/-!
# From the files to the run

`main` (`os.c`) has `read_config` read the configuration file, and then starts the threads; the
loader has `load` read the file of each process when it comes to it. What the CPUs execute of a
process is what is printed in its file: each instruction once, in order, with the arguments it is
printed with (`executes_printed`).

## The model

`boot` puts `read_config` and `load` together. The files do not change while the simulator runs,
so it makes no difference that the loader reads them one at a time, between its slots. A file that
cannot be opened and a word that is no opcode end the program (`exit(1)`); here they have no
result, as what is undefined has none.

What is *not* modelled: a null character in an argument of the program, which cannot be.
-/

namespace Ossim.Boot

open Machine Machine.Scan Mem

/-- What is at a path, if there is a file. -/
abbrev Files : Type := List Char → Option (List Char)

/-- `path` of `main`, where `arg` is `argv[1]`. -/
def configPath (arg : List Char) : List Char := "input/".toList ++ arg

/-- What the loader hands to the scheduler. -/
structure Task where
  /-- `code->text`. -/
  text : List Inst
  /-- `prio`: the low 32 bits of what the configuration says. -/
  prio : ℕ
  /-- `start_time[i]`. -/
  startTime : ℕ

/-- `load(ld_processes.path[i])` and what `ld_routine` stores in the process, where `junk` is in
the fields of `code->text` in which nothing is stored. -/
def loadTask (files : Files) (junk : ℕ → ℕ → Addr) (proc : LdProcess) : Option Task := do
  let file ← files proc.path
  match ← Loader.load file with
  | none => none
  | some p =>
    let prio ← proc.prio
    some ⟨p.text.mapIdx fun k ins => ins.inst (junk k), (prio.setWidth 32).toNat,
      proc.startTime.toNat⟩

/-- What the loader makes of its list, one process after the other. -/
def loadTasks (files : Files) : (ℕ → ℕ → ℕ → Addr) → List LdProcess → Option (List Task)
  | _, [] => some []
  | junk, proc :: procs => do
    let task ← loadTask files (junk 0) proc
    let tasks ← loadTasks files (fun i => junk (i + 1)) procs
    some (task :: tasks)

/-- What the threads are started with. -/
def simulation (c : Config) (tasks : List Task) : Simulator.Config Inst where
  timeSlot := c.timeSlot.toInt
  numCpus := c.numCpus.toInt.toNat
  numProcesses := tasks.length
  text := fun p => (tasks.get p).text
  prio := fun p => (tasks.get p).prio
  startTime := fun p => (tasks.get p).startTime

/-- `main`, up to where it creates the threads, and what the loader will read. -/
def boot (files : Files) (junk : ℕ → ℕ → ℕ → Addr) (arg : List Char) :
    Option (Simulator.Config Inst) :=
  if (configPath arg).length < pathSize then do
    let file ← files (configPath arg)
    let c ← readConfig file
    let tasks ← loadTasks files junk c.ldProcesses
    some (simulation c tasks)
  else none

/-! ### Files that hold a configuration and its programs -/

/-- The configuration and the programs it names are in the files. -/
structure Stored (files : Files) (arg : List Char) (c : File)
    (program : List Char → Loader.Program) : Prop where
  /-- The path of the configuration fits `path`. -/
  short : (configPath arg).length < pathSize
  /-- The configuration is in its file, in some layout. -/
  config : ∃ file rest, files (configPath arg) = some file ∧ words file = c.words ++ rest
  /-- Each program is in its file, as it is printed. -/
  programs : ∀ l ∈ c.lines, files (procPath l.name) = some (Loader.print (program l.name))
  /-- A `uint32_t` counts the instructions. -/
  size : ∀ l ∈ c.lines, (program l.name).text.length < 2 ^ 32

/-- Every name fits its arrays: that of the program, and those of its opcodes. -/
def NamesFit (c : File) (program : List Char → Loader.Program) : Prop :=
  ∀ l ∈ c.lines, NameFits l.name ∧ ∀ ins ∈ (program l.name).text, Loader.Fits ins.opcode

instance (c : File) (program : List Char → Loader.Program) : Decidable (NamesFit c program) :=
  inferInstanceAs (Decidable (∀ l ∈ c.lines, _ ∧ _))

/-- What the loader makes of a line. -/
def Line.task (l : Line) (program : List Char → Loader.Program) (junk : ℕ → ℕ → Addr) : Task :=
  ⟨(program l.name).text.mapIdx fun k ins => ins.loaded.inst (junk k), (l.prio.setWidth 32).toNat,
    l.startTime.toNat⟩

/-- What it makes of the lines. -/
def tasks (ls : List Line) (program : List Char → Loader.Program) (junk : ℕ → ℕ → ℕ → Addr) :
    List Task := ls.mapIdx fun i l => l.task program (junk i)

variable {files : Files} {arg : List Char} {c : File} {program : List Char → Loader.Program}
variable {l : Line} {ls : List Line} {junk : ℕ → ℕ → ℕ → Addr}

theorem loadTask_print (junk : ℕ → ℕ → Addr)
    (hfile : files (procPath l.name) = some (Loader.print (program l.name)))
    (hsize : (program l.name).text.length < 2 ^ 32)
    (hfits : ∀ ins ∈ (program l.name).text, Loader.Fits ins.opcode) :
    loadTask files junk l.ldProcess = some (l.task program junk) := by
  have htext : ((program l.name).text.map Loader.Instr.loaded).mapIdx
        (fun k ins => ins.inst (junk k)) =
      (program l.name).text.mapIdx fun k ins => ins.loaded.inst (junk k) := by
    apply List.ext_getElem <;> simp
  simp only [loadTask, Line.ldProcess, hfile, Option.bind_eq_bind, Option.bind_some,
    Loader.load_print (program l.name) hsize, if_pos hfits, htext, Line.task]

theorem loadTasks_print (junk : ℕ → ℕ → ℕ → Addr)
    (hfiles : ∀ l ∈ ls, files (procPath l.name) = some (Loader.print (program l.name)))
    (hsize : ∀ l ∈ ls, (program l.name).text.length < 2 ^ 32)
    (hfits : ∀ l ∈ ls, ∀ ins ∈ (program l.name).text, Loader.Fits ins.opcode) :
    loadTasks files junk (ls.map Line.ldProcess) = some (tasks ls program junk) := by
  induction ls generalizing junk with
  | nil => rfl
  | cons l ls ih =>
    have hfirst := loadTask_print (junk 0) (hfiles l List.mem_cons_self)
      (hsize l List.mem_cons_self) (hfits l List.mem_cons_self)
    have hrest := ih (fun i => junk (i + 1)) (fun k hk => hfiles k (List.mem_cons_of_mem l hk))
      (fun k hk => hsize k (List.mem_cons_of_mem l hk))
      fun k hk => hfits k (List.mem_cons_of_mem l hk)
    simp only [List.map_cons, loadTasks, hfirst, hrest, tasks, List.mapIdx_cons,
      Option.bind_eq_bind, Option.bind_some]

/-- What `main` makes of the files. -/
theorem Stored.boot_eq (h : Stored files arg c program) (junk : ℕ → ℕ → ℕ → Addr)
    (hfit : NamesFit c program) :
    boot files junk arg = some (simulation c.config (tasks c.lines program junk)) := by
  obtain ⟨file, rest, hfile, hwords⟩ := h.config
  have hconfig := readConfig_eq c file rest hwords
  have htasks := loadTasks_print junk h.programs h.size fun l hl => (hfit l hl).2
  rw [if_pos fun l hl => (hfit l hl).1] at hconfig
  simp only [boot, if_pos h.short, hfile, Option.bind_eq_bind, Option.bind_some, hconfig]
  rw [File.config, htasks]
  rfl

/-! ### What is executed -/

/-- What `run` passes on of an instruction. -/
def passed (ins : Inst) : InsOpcode × List Addr :=
  (ins.opcode, [ins.arg0, ins.arg1, ins.arg2, ins.arg3].take (Loader.passes ins.opcode))

/-- An instruction as it is printed. -/
def printed (ins : Loader.Instr) : InsOpcode × List Addr := (ins.opcode, ins.args)

theorem take_getD (args : List Addr) (hargs : args.length ≤ 4) (a b c d : Addr) :
    [args.getD 0 a, args.getD 1 b, args.getD 2 c, args.getD 3 d].take args.length = args := by
  rcases args with _ | ⟨a₀, _ | ⟨a₁, _ | ⟨a₂, _ | ⟨a₃, _ | ⟨a₄, args⟩⟩⟩⟩⟩
  · rfl
  · rfl
  · rfl
  · rfl
  · rfl
  · simp only [List.length_cons] at hargs
    omega

theorem passed_loaded (ins : Loader.Instr) (junk : ℕ → Addr) :
    passed (ins.loaded.inst junk) = printed ins := by
  have hargs := ins.length_args
  rw [← Loader.passes_eq] at hargs
  have hle : ins.args.length ≤ 4 := by
    rw [hargs]
    cases ins.opcode <;> decide
  refine Prod.ext rfl ?_
  show List.take (Loader.passes ins.opcode) _ = ins.args
  rw [← hargs]
  exact take_getD ins.args hle _ _ _ _

theorem text_task (l : Line) (program : List Char → Loader.Program) (junk : ℕ → ℕ → Addr) :
    (l.task program junk).text.map passed = (program l.name).text.map printed := by
  apply List.ext_getElem
  · simp [Line.task]
  · simp [Line.task, passed_loaded]

theorem get_tasks (ls : List Line) (program : List Char → Loader.Program)
    (junk : ℕ → ℕ → ℕ → Addr) (p : Fin (tasks ls program junk).length) :
    ∃ l, ls[(p : ℕ)]? = some l ∧ (tasks ls program junk).get p = l.task program (junk p) := by
  have hp : (p : ℕ) < ls.length := by simpa [tasks] using p.isLt
  refine ⟨ls[(p : ℕ)], List.getElem?_eq_getElem hp, ?_⟩
  rw [List.get_eq_getElem]
  exact List.getElem_mapIdx

/-- **What is printed is what is executed.** Let the configuration and its programs be in the
files, in names that fit. Then `main` starts the threads, and whatever they do and in whichever
order, the instructions executed of a process are the first `pc` of those printed in its file,
with the same arguments; and all of them, when it is freed. -/
theorem executes_printed (files : Files) (arg : List Char) (c : File)
    (program : List Char → Loader.Program) (junk : ℕ → ℕ → ℕ → Addr)
    (h : Stored files arg c program) (hfit : NamesFit c program) :
    ∃ cfg, boot files junk arg = some cfg ∧ cfg.numCpus = c.numCpus.toInt.toNat ∧
      cfg.numProcesses = c.lines.length ∧
      ∀ as, ∀ p : cfg.Proc, ∃ l, c.lines[(p : ℕ)]? = some l ∧
        cfg.startTime p = l.startTime.toNat ∧
        (Simulator.executed (Simulator.simulate cfg as) p).map passed =
          ((program l.name).text.take ((Simulator.simulate cfg as).pc p)).map printed ∧
        (p ∈ (Simulator.simulate cfg as).freed →
          (Simulator.executed (Simulator.simulate cfg as) p).map passed =
            (program l.name).text.map printed) := by
  have hlength : (tasks c.lines program junk).length = c.lines.length := by simp [tasks]
  refine ⟨_, h.boot_eq junk hfit, rfl, hlength, ?_⟩
  intro as p
  obtain ⟨l, hl, htask⟩ := get_tasks c.lines program junk p
  have hinv := Simulator.inv_after (Simulator.osClock _) Timer.startTimer as
  have htext := text_task l program (junk p)
  rw [← htask] at htext
  have hexecuted := hinv.executed_eq p
  refine ⟨l, hl, congrArg Task.startTime htask, ?_, ?_⟩
  · rw [Simulator.simulate, hexecuted, List.map_take, List.map_take, ← htext]
    rfl
  · intro hfreed
    rw [Simulator.simulate, hexecuted, hinv.finished p hfreed, Simulator.Config.size,
      List.take_length, ← htext]
    rfl

/-- `os_syscall`: one CPU and one process. -/
def osSyscall : File where
  timeSlot := 2
  numCpus := 1
  memramsz := 2048
  memswpsz := oneSwap
  lines := [⟨1, "sc2".toList, 15⟩]
  length_memswpsz := length_oneSwap
  length_lines := Nat.one_lt_two_pow (Nat.succ_ne_zero 30)

/-- `sc2`: a system call, and an instruction that reads no number. -/
def sc2 : Loader.Program := ⟨20, [⟨.syscall, [17, 1, 2, 3], rfl⟩, ⟨.calc, [], rfl⟩]⟩

/-- The two files. -/
def syscallFiles : Files := fun path =>
  if path = configPath "os_syscall".toList then
    some "2 1 1\n2048 16777216 0 0 0\n1 sc2  15\n".toList
  else if path = procPath "sc2".toList then some (Loader.print sc2)
  else none

theorem stored_osSyscall : Stored syscallFiles "os_syscall".toList osSyscall fun _ => sc2 where
  short := by decide
  config := ⟨_, [], rfl, by decide +kernel⟩
  programs := by decide +kernel
  size := by decide

theorem executes_printed_osSyscall :
    ∃ cfg, boot syscallFiles (fun _ _ _ => 0) "os_syscall".toList = some cfg ∧
      cfg.numCpus = osSyscall.numCpus.toInt.toNat ∧ cfg.numProcesses = osSyscall.lines.length ∧
      ∀ as, ∀ p : cfg.Proc, ∃ l, osSyscall.lines[(p : ℕ)]? = some l ∧
        cfg.startTime p = l.startTime.toNat ∧
        (Simulator.executed (Simulator.simulate cfg as) p).map passed =
          (sc2.text.take ((Simulator.simulate cfg as).pc p)).map printed ∧
        (p ∈ (Simulator.simulate cfg as).freed →
          (Simulator.executed (Simulator.simulate cfg as) p).map passed = sc2.text.map printed) :=
  executes_printed syscallFiles "os_syscall".toList osSyscall (fun _ => sc2) (fun _ _ _ => 0)
    stored_osSyscall (by decide)

end Ossim.Boot
