import Ossim.Sched.Calls
import Ossim.Timer.Protocol

/-!
# The loader and the CPUs

`os.c`: the loader thread (`ld_routine`) creates the processes one after another, each
not before its start time, and sets `done` after the last; each CPU thread
(`cpu_routine`) takes a process from the scheduler, runs one instruction of it in each
time slot, and puts it back when its quantum is over.

## The model

A step of a thread is one call of the scheduler, one call of `run`, one access to the
shared variable `done`, or one of the steps of `next_slot` and `detach_event`; what a
thread does between two of these concerns its own variables and goes with the next or
the last one. A process is its index in the configuration; `pc` is the one field of its
PCB that changes. What `run` does to the memory of a process is left out: no function
it calls writes the fields, queues or variables of this model.

The timer is a parameter (`Clock`), of which nothing is assumed: what is proved of the
simulator holds whatever `next_slot` waits for. `timerClock` is the clock there really
is.

Three fields of the state record what the program does not: the processes freed, those
that a full queue dropped, and the instructions run.

What is *not* modelled: the memory system, printing, and `running_list`.
-/

namespace Ossim.Simulator

open Sched

/-- The timer, as the threads see it. -/
structure Clock (D κ τ : Type*) where
  /-- A device starts a call of `next_slot`. -/
  nextSlot : D → τ → Option τ
  /-- It returns from the call. -/
  leave : D → τ → Option τ
  /-- `detach_event`. -/
  detachEvent : D → τ → Option τ
  /-- The timer's own steps. -/
  internal : κ → τ → Option τ
  /-- `current_time`. -/
  currentTime : τ → ℕ

/-- What has a device: the CPUs and the loader. -/
inductive Party (n : ℕ) where
  /-- CPU `c`. -/
  | cpu (c : Fin n)
  /-- The loader. -/
  | ld
  deriving DecidableEq

/-- What `read_config` and `load` read; `ι` is the type of instructions. -/
structure Config (ι : Type*) where
  /-- `time_slot`. -/
  timeSlot : ℤ
  /-- `num_cpus`. -/
  numCpus : ℕ
  /-- `num_processes`. -/
  numProcesses : ℕ
  /-- `code->text`; its length is `code->size`. -/
  text : Fin numProcesses → List ι
  /-- `ld_processes.prio`. -/
  prio : Fin numProcesses → ℕ
  /-- `ld_processes.start_time`. -/
  startTime : Fin numProcesses → ℕ

variable {ι κ τ : Type*}

/-- A process. -/
abbrev Config.Proc (cfg : Config ι) : Type := Fin cfg.numProcesses

/-- `code->size`. -/
def Config.size (cfg : Config ι) (p : cfg.Proc) : ℕ := (cfg.text p).length

/-- Where a CPU thread is in `cpu_routine`. -/
inductive CpuLoc where
  /-- At the top of the loop. -/
  | top
  /-- Past `free(proc)`, before `get_proc`. -/
  | reaped
  /-- Past `put_proc(proc)`, before `get_proc`. -/
  | requeued
  /-- At the second chain of tests. -/
  | recheck
  /-- At a `next_slot` that `continue` follows. -/
  | idle
  /-- In it. -/
  | idleWait
  /-- At the `next_slot` that `run` follows. -/
  | slot
  /-- In it. -/
  | slotWait
  /-- At `run(proc)`. -/
  | run
  /-- Past the loop, before `detach_event`. -/
  | detach
  /-- Past `detach_event`. -/
  | exited
  deriving DecidableEq

/-- A CPU thread. -/
structure Cpu (α : Type*) where
  /-- Where it is. -/
  loc : CpuLoc
  /-- `proc`. -/
  proc : Option α
  /-- `time_left`. -/
  timeLeft : ℤ

/-- Where the loader thread is in `ld_routine`. -/
inductive LdLoc where
  /-- At the test `i < num_processes`. -/
  | head
  /-- At the test of `current_time()`. -/
  | check
  /-- At `next_slot`. -/
  | idle
  /-- In it. -/
  | idleWait
  /-- At `add_proc(proc)`. -/
  | add
  /-- Past `done = 1`, before `detach_event`. -/
  | detach
  /-- Past `detach_event`. -/
  | exited
  deriving DecidableEq

/-- An instruction that `run` has executed. -/
structure Executed (cfg : Config ι) where
  /-- The CPU that called `run`. -/
  cpu : Fin cfg.numCpus
  /-- The process. -/
  proc : cfg.Proc
  /-- The instruction. -/
  ins : ι
  /-- The time slot. -/
  time : ℕ

/-- The state of the simulator. -/
structure State (cfg : Config ι) (τ : Type*) where
  /-- The scheduler. -/
  mlq : Mlq cfg.Proc
  /-- `proc->pc` of each process. -/
  pc : cfg.Proc → ℕ
  /-- `done`. -/
  done : Bool
  /-- The timer. -/
  clock : τ
  /-- The CPU threads. -/
  cpu : Fin cfg.numCpus → Cpu cfg.Proc
  /-- The loader thread. -/
  ld : LdLoc
  /-- The loader's `i`. -/
  i : ℕ
  /-- The processes freed. -/
  freed : List cfg.Proc
  /-- The processes handed to a full queue. -/
  dropped : List cfg.Proc
  /-- The instructions executed, the first one first. -/
  log : List (Executed cfg)

/-- The state when the threads are created. -/
def initial (cfg : Config ι) (t : τ) : State cfg τ where
  mlq := start
  pc := fun _ => 0
  done := false
  clock := t
  cpu := fun _ => ⟨.top, none, 0⟩
  ld := .head
  i := 0
  freed := []
  dropped := []
  log := []

variable {cfg : Config ι}

/-- CPU `c` goes on as `x`. -/
def setCpu (s : State cfg τ) (c : Fin cfg.numCpus) (x : Cpu cfg.Proc) : State cfg τ :=
  { s with cpu := Function.update s.cpu c x }

@[simp] theorem setCpu_self (s : State cfg τ) (c : Fin cfg.numCpus) (x : Cpu cfg.Proc) :
    (setCpu s c x).cpu c = x := Function.update_self ..

theorem setCpu_of_ne (s : State cfg τ) {c c' : Fin cfg.numCpus} (x : Cpu cfg.Proc)
    (h : c' ≠ c) : (setCpu s c x).cpu c' = s.cpu c' :=
  Function.update_of_ne h ..

/-- `proc = get_proc();`, after which the CPU is at the second chain of tests, or at `l` if
there was no process. -/
def fetch (c : Fin cfg.numCpus) (l : CpuLoc) (timeLeft : ℤ) (s : State cfg τ) : State cfg τ :=
  setCpu { s with mlq := (getProc s.mlq).2 } c
    ⟨if (getProc s.mlq).1.isNone then l else .recheck, (getProc s.mlq).1, timeLeft⟩

/-- The processes handed to a full queue, after process `p` is handed to its queue. -/
def drop (p : cfg.Proc) (s : State cfg τ) : List cfg.Proc :=
  if HasRoom cfg.prio s.mlq p then s.dropped else p :: s.dropped

/-- `put_proc(p)`. -/
def putBack (p : cfg.Proc) (s : State cfg τ) : State cfg τ :=
  { s with mlq := putProc cfg.prio (some p) s.mlq, dropped := drop p s }

/-- `add_proc(p)`. -/
def handOver (p : cfg.Proc) (s : State cfg τ) : State cfg τ :=
  { s with mlq := addProc cfg.prio (some p) s.mlq, dropped := drop p s }

/-- `run(p)` on CPU `c`, as far as `pc` goes. -/
def run (clk : Clock (Party cfg.numCpus) κ τ) (c : Fin cfg.numCpus) (p : cfg.Proc) (s : State cfg τ) :
    State cfg τ :=
  if h : s.pc p ≥ cfg.size p then s
  else
    { s with
      pc := Function.update s.pc p (s.pc p + 1)
      log := s.log ++
        [⟨c, p, (cfg.text p).get ⟨s.pc p, Nat.lt_of_not_le h⟩, clk.currentTime s.clock⟩] }

theorem run_cpu (clk : Clock (Party cfg.numCpus) κ τ) (c : Fin cfg.numCpus) (p : cfg.Proc)
    (s : State cfg τ) : (run clk c p s).cpu = s.cpu := by
  unfold run
  split_ifs <;> rfl

/-- `cpu_routine`. -/
def cpuRoutine (clk : Clock (Party cfg.numCpus) κ τ) (c : Fin cfg.numCpus) (s : State cfg τ) :
    Option (State cfg τ) :=
  match s.cpu c with
  | ⟨.top, none, timeLeft⟩ => some (fetch c .idle timeLeft s)
  | ⟨.top, some p, timeLeft⟩ =>
    if s.pc p = cfg.size p then
      some { setCpu s c ⟨.reaped, some p, timeLeft⟩ with freed := p :: s.freed }
    else if timeLeft = 0 then some (setCpu (putBack p s) c ⟨.requeued, some p, timeLeft⟩)
    else some (setCpu s c ⟨.recheck, some p, timeLeft⟩)
  | ⟨.reaped, _, _⟩ => some (fetch c .recheck 0 s)
  | ⟨.requeued, _, timeLeft⟩ => some (fetch c .recheck timeLeft s)
  | ⟨.recheck, none, timeLeft⟩ =>
    some (setCpu s c ⟨if s.done then .detach else .idle, none, timeLeft⟩)
  | ⟨.recheck, some p, timeLeft⟩ =>
    some (setCpu s c ⟨.slot, some p, if timeLeft = 0 then cfg.timeSlot else timeLeft⟩)
  | ⟨.idle, proc, timeLeft⟩ =>
    (clk.nextSlot (.cpu c) s.clock).map fun t =>
      setCpu { s with clock := t } c ⟨.idleWait, proc, timeLeft⟩
  | ⟨.idleWait, proc, timeLeft⟩ =>
    (clk.leave (.cpu c) s.clock).map fun t => setCpu { s with clock := t } c ⟨.top, proc, timeLeft⟩
  | ⟨.slot, proc, timeLeft⟩ =>
    (clk.nextSlot (.cpu c) s.clock).map fun t =>
      setCpu { s with clock := t } c ⟨.slotWait, proc, timeLeft⟩
  | ⟨.slotWait, proc, timeLeft⟩ =>
    (clk.leave (.cpu c) s.clock).map fun t => setCpu { s with clock := t } c ⟨.run, proc, timeLeft⟩
  | ⟨.run, some p, timeLeft⟩ => some (setCpu (run clk c p s) c ⟨.top, some p, timeLeft - 1⟩)
  | ⟨.run, none, _⟩ => none
  | ⟨.detach, proc, timeLeft⟩ =>
    (clk.detachEvent (.cpu c) s.clock).map fun t =>
      setCpu { s with clock := t } c ⟨.exited, proc, timeLeft⟩
  | ⟨.exited, _, _⟩ => none

/-- `ld_routine`. -/
def ldRoutine (clk : Clock (Party cfg.numCpus) κ τ) (s : State cfg τ) : Option (State cfg τ) :=
  match s.ld with
  | .head =>
    if h : s.i < cfg.numProcesses then
      some { s with pc := Function.update s.pc ⟨s.i, h⟩ 0, ld := .check }
    else some { s with done := true, ld := .detach }
  | .check =>
    if h : s.i < cfg.numProcesses then
      some { s with ld := if clk.currentTime s.clock < cfg.startTime ⟨s.i, h⟩ then .idle else .add }
    else none
  | .idle => (clk.nextSlot .ld s.clock).map fun t => { s with clock := t, ld := .idleWait }
  | .idleWait => (clk.leave .ld s.clock).map fun t => { s with clock := t, ld := .check }
  | .add =>
    if h : s.i < cfg.numProcesses then some { handOver ⟨s.i, h⟩ s with i := s.i + 1, ld := .head }
    else none
  | .detach => (clk.detachEvent .ld s.clock).map fun t => { s with clock := t, ld := .exited }
  | .exited => none

/-- Whose turn it is. -/
inductive Turn (n : ℕ) (κ : Type*) where
  /-- CPU `c`'s. -/
  | cpu (c : Fin n)
  /-- The loader's. -/
  | ld
  /-- The timer's. -/
  | clock (k : κ)

/-- A step. -/
def step (clk : Clock (Party cfg.numCpus) κ τ) (a : Turn cfg.numCpus κ) (s : State cfg τ) :
    Option (State cfg τ) :=
  match a with
  | .cpu c => cpuRoutine clk c s
  | .ld => ldRoutine clk s
  | .clock k => (clk.internal k s.clock).map fun t => { s with clock := t }

/-- A turn; a thread that cannot move loses it. -/
def move (clk : Clock (Party cfg.numCpus) κ τ) : Turn cfg.numCpus κ → State cfg τ → State cfg τ :=
  Machine.stutter (step clk)

/-- The state after the turns of a schedule. -/
def after (clk : Clock (Party cfg.numCpus) κ τ) (t : τ) (as : List (Turn cfg.numCpus κ)) :
    State cfg τ :=
  Machine.run (move clk) as (initial cfg t)

/-! ### The clock -/

/-- The timer of `timer.c` as a clock. -/
def timerClock {D : Type*} [DecidableEq D] (devs : Timer.DevList D) :
    Clock D (Timer.Internal D) (Timer.State D) where
  nextSlot := Timer.nextSlot
  leave := Timer.leave
  detachEvent := Timer.detachEvent
  internal := Timer.internal devs
  currentTime := Timer.currentTime

/-- `dev_list` as `main` builds it: the CPUs attach in order and then the loader, each in
front of those before it. -/
def attached (n : ℕ) : Timer.DevList (Party n) where
  list := .ld :: (List.finRange n).reverse.map .cpu
  nodup := by
    refine List.nodup_cons.mpr ⟨by simp, ?_⟩
    exact (List.nodup_reverse.mpr (List.nodup_finRange n)).map fun _ _ h => Party.cpu.inj h
  mem_list := by rintro (c | _) <;> simp

/-- The timer and the devices of the simulator. -/
def osClock (cfg : Config ι) :
    Clock (Party cfg.numCpus) (Timer.Internal (Party cfg.numCpus))
      (Timer.State (Party cfg.numCpus)) :=
  timerClock (attached cfg.numCpus)

/-- The simulator with its timer, after the turns of a schedule. -/
def simulate (cfg : Config ι) (as : List (Turn cfg.numCpus (Timer.Internal (Party cfg.numCpus)))) :
    State cfg (Timer.State (Party cfg.numCpus)) := after (osClock cfg) Timer.startTimer as

/-! ### What a turn does -/

/-- How a CPU moves without a call of the scheduler and without running: the timer and the
CPU, before and after. -/
inductive Quiet (clk : Clock (Party cfg.numCpus) κ τ) (c : Fin cfg.numCpus) (done : Bool) :
    τ → Cpu cfg.Proc → τ → Cpu cfg.Proc → Prop where
  /-- Its process is to run in the next slot. -/
  | dispatch {k : τ} (p : cfg.Proc) (t : ℤ) :
    Quiet clk c done k ⟨.recheck, some p, t⟩ k ⟨.slot, some p, if t = 0 then cfg.timeSlot else t⟩
  /-- It stops. -/
  | stop {k : τ} (t : ℤ) (h : done = true) :
    Quiet clk c done k ⟨.recheck, none, t⟩ k ⟨.detach, none, t⟩
  /-- It has nothing to run in this slot. -/
  | skip {k : τ} (t : ℤ) (h : done = false) :
    Quiet clk c done k ⟨.recheck, none, t⟩ k ⟨.idle, none, t⟩
  /-- It enters `next_slot` with nothing to run. -/
  | idle {k k' : τ} (p : Option cfg.Proc) (t : ℤ) (h : clk.nextSlot (.cpu c) k = some k') :
    Quiet clk c done k ⟨.idle, p, t⟩ k' ⟨.idleWait, p, t⟩
  /-- It returns. -/
  | wake {k k' : τ} (p : Option cfg.Proc) (t : ℤ) (h : clk.leave (.cpu c) k = some k') :
    Quiet clk c done k ⟨.idleWait, p, t⟩ k' ⟨.top, p, t⟩
  /-- It enters `next_slot` with a process to run. -/
  | slot {k k' : τ} (p : Option cfg.Proc) (t : ℤ) (h : clk.nextSlot (.cpu c) k = some k') :
    Quiet clk c done k ⟨.slot, p, t⟩ k' ⟨.slotWait, p, t⟩
  /-- It returns. -/
  | begin {k k' : τ} (p : Option cfg.Proc) (t : ℤ) (h : clk.leave (.cpu c) k = some k') :
    Quiet clk c done k ⟨.slotWait, p, t⟩ k' ⟨.run, p, t⟩
  /-- It detaches. -/
  | exit {k k' : τ} (p : Option cfg.Proc) (t : ℤ) (h : clk.detachEvent (.cpu c) k = some k') :
    Quiet clk c done k ⟨.detach, p, t⟩ k' ⟨.exited, p, t⟩

/-- What a turn of CPU `c` does. -/
inductive CpuTurn (clk : Clock (Party cfg.numCpus) κ τ) (c : Fin cfg.numCpus) (s : State cfg τ) :
    State cfg τ → Prop where
  /-- It asks for a process at the top of the loop. -/
  | load (t : ℤ) (h : s.cpu c = ⟨.top, none, t⟩) : CpuTurn clk c s (fetch c .idle t s)
  /-- It asks for one in place of the one it freed. -/
  | replace (p : Option cfg.Proc) (t : ℤ) (h : s.cpu c = ⟨.reaped, p, t⟩) :
    CpuTurn clk c s (fetch c .recheck 0 s)
  /-- It asks for one in place of the one it put back. -/
  | rotate (p : Option cfg.Proc) (t : ℤ) (h : s.cpu c = ⟨.requeued, p, t⟩) :
    CpuTurn clk c s (fetch c .recheck t s)
  /-- It frees its process, which has finished. -/
  | free (p : cfg.Proc) (t : ℤ) (h : s.cpu c = ⟨.top, some p, t⟩) (hpc : s.pc p = cfg.size p) :
    CpuTurn clk c s { setCpu s c ⟨.reaped, some p, t⟩ with freed := p :: s.freed }
  /-- It puts its process back, whose quantum is over. -/
  | put (p : cfg.Proc) (t : ℤ) (h : s.cpu c = ⟨.top, some p, t⟩) (hpc : s.pc p ≠ cfg.size p)
      (ht : t = 0) :
    CpuTurn clk c s (setCpu (putBack p s) c ⟨.requeued, some p, t⟩)
  /-- It keeps its process. -/
  | keep (p : cfg.Proc) (t : ℤ) (h : s.cpu c = ⟨.top, some p, t⟩) (hpc : s.pc p ≠ cfg.size p)
      (ht : t ≠ 0) :
    CpuTurn clk c s (setCpu s c ⟨.recheck, some p, t⟩)
  /-- It runs its process. -/
  | run (p : cfg.Proc) (t : ℤ) (h : s.cpu c = ⟨.run, some p, t⟩) :
    CpuTurn clk c s (setCpu (run clk c p s) c ⟨.top, some p, t - 1⟩)
  /-- It moves in some other way. -/
  | quiet (k : τ) (x : Cpu cfg.Proc) (h : Quiet clk c s.done s.clock (s.cpu c) k x) :
    CpuTurn clk c s (setCpu { s with clock := k } c x)

variable {clk : Clock (Party cfg.numCpus) κ τ} {s s' : State cfg τ}

theorem CpuTurn.of_quiet {c : Fin cfg.numCpus} {x y : Cpu cfg.Proc} {k : τ} (hx : s.cpu c = x)
    (h : Quiet clk c s.done s.clock x k y) : CpuTurn clk c s (setCpu { s with clock := k } c y) :=
  .quiet k y (hx ▸ h)

theorem cpuTurn_of_cpuRoutine {c : Fin cfg.numCpus} (h : cpuRoutine clk c s = some s') :
    CpuTurn clk c s s' := by
  unfold cpuRoutine at h
  split at h
  next t hx => exact Option.some.inj h ▸ .load t hx
  next p t hx =>
    split_ifs at h with hpc ht
    · exact Option.some.inj h ▸ .free p t hx hpc
    · exact Option.some.inj h ▸ .put p t hx hpc ht
    · exact Option.some.inj h ▸ .keep p t hx hpc ht
  next p t hx => exact Option.some.inj h ▸ .replace p t hx
  next p t hx => exact Option.some.inj h ▸ .rotate p t hx
  next t hx =>
    obtain rfl := Option.some.inj h
    cases hdone : s.done with
    | true => exact .of_quiet hx (.stop t hdone)
    | false => exact .of_quiet hx (.skip t hdone)
  next p t hx => exact Option.some.inj h ▸ .of_quiet hx (.dispatch p t)
  next p t hx =>
    obtain ⟨k, hk, rfl⟩ := Option.map_eq_some_iff.mp h
    exact .of_quiet hx (.idle p t hk)
  next p t hx =>
    obtain ⟨k, hk, rfl⟩ := Option.map_eq_some_iff.mp h
    exact .of_quiet hx (.wake p t hk)
  next p t hx =>
    obtain ⟨k, hk, rfl⟩ := Option.map_eq_some_iff.mp h
    exact .of_quiet hx (.slot p t hk)
  next p t hx =>
    obtain ⟨k, hk, rfl⟩ := Option.map_eq_some_iff.mp h
    exact .of_quiet hx (.begin p t hk)
  next p t hx => exact Option.some.inj h ▸ .run p t hx
  next => cases h
  next p t hx =>
    obtain ⟨k, hk, rfl⟩ := Option.map_eq_some_iff.mp h
    exact .of_quiet hx (.exit p t hk)
  next => cases h

/-- How the loader moves without touching a process: the timer and the loader's place,
before and after. -/
inductive LdQuiet (clk : Clock (Party cfg.numCpus) κ τ) : τ → LdLoc → τ → LdLoc → Prop where
  /-- It enters `next_slot`. -/
  | idle {k k' : τ} (h : clk.nextSlot .ld k = some k') : LdQuiet clk k .idle k' .idleWait
  /-- It returns. -/
  | wake {k k' : τ} (h : clk.leave .ld k = some k') : LdQuiet clk k .idleWait k' .check
  /-- It detaches. -/
  | exit {k k' : τ} (h : clk.detachEvent .ld k = some k') : LdQuiet clk k .detach k' .exited

/-- What a turn of the loader does. -/
inductive LdTurn (clk : Clock (Party cfg.numCpus) κ τ) (s : State cfg τ) : State cfg τ → Prop where
  /-- It creates the next process. -/
  | load (h : s.i < cfg.numProcesses) (hloc : s.ld = .head) :
    LdTurn clk s { s with pc := Function.update s.pc ⟨s.i, h⟩ 0, ld := .check }
  /-- It sets `done`. -/
  | store (h : ¬ s.i < cfg.numProcesses) (hloc : s.ld = .head) :
    LdTurn clk s { s with done := true, ld := .detach }
  /-- It finds the start time not yet come, or come. -/
  | look (h : s.i < cfg.numProcesses) (hloc : s.ld = .check) :
    LdTurn clk s
      { s with ld := if clk.currentTime s.clock < cfg.startTime ⟨s.i, h⟩ then .idle else .add }
  /-- It hands its process to the scheduler. -/
  | add (h : s.i < cfg.numProcesses) (hloc : s.ld = .add) :
    LdTurn clk s { handOver ⟨s.i, h⟩ s with i := s.i + 1, ld := .head }
  /-- It moves in some other way. -/
  | quiet (k : τ) (l : LdLoc) (h : LdQuiet clk s.clock s.ld k l) :
    LdTurn clk s { s with clock := k, ld := l }

theorem ldTurn_of_ldRoutine (h : ldRoutine clk s = some s') : LdTurn clk s s' := by
  unfold ldRoutine at h
  split at h
  next hloc =>
    by_cases hi : s.i < cfg.numProcesses
    · rw [dif_pos hi] at h
      exact Option.some.inj h ▸ .load hi hloc
    · rw [dif_neg hi] at h
      exact Option.some.inj h ▸ .store hi hloc
  next hloc =>
    by_cases hi : s.i < cfg.numProcesses
    · rw [dif_pos hi] at h
      exact Option.some.inj h ▸ .look hi hloc
    · rw [dif_neg hi] at h
      cases h
  next hloc =>
    obtain ⟨k, hk, rfl⟩ := Option.map_eq_some_iff.mp h
    exact .quiet k _ (hloc ▸ .idle hk)
  next hloc =>
    obtain ⟨k, hk, rfl⟩ := Option.map_eq_some_iff.mp h
    exact .quiet k _ (hloc ▸ .wake hk)
  next hloc =>
    by_cases hi : s.i < cfg.numProcesses
    · rw [dif_pos hi] at h
      exact Option.some.inj h ▸ .add hi hloc
    · rw [dif_neg hi] at h
      cases h
  next hloc =>
    obtain ⟨k, hk, rfl⟩ := Option.map_eq_some_iff.mp h
    exact .quiet k _ (hloc ▸ .exit hk)
  next => cases h

/-- A turn is a turn of a CPU, of the loader, or of the timer. -/
theorem step_cases {a : Turn cfg.numCpus κ} (h : step clk a s = some s') :
    (∃ c, a = .cpu c ∧ CpuTurn clk c s s') ∨ (a = .ld ∧ LdTurn clk s s') ∨
      ∃ i k, a = .clock i ∧ clk.internal i s.clock = some k ∧ s' = { s with clock := k } := by
  cases a with
  | cpu c => exact .inl ⟨c, rfl, cpuTurn_of_cpuRoutine h⟩
  | ld => exact .inr (.inl ⟨rfl, ldTurn_of_ldRoutine h⟩)
  | clock i =>
    obtain ⟨k, hk, rfl⟩ := Option.map_eq_some_iff.mp h
    exact .inr (.inr ⟨i, k, rfl, hk, rfl⟩)

end Ossim.Simulator
