import Ossim.System.Routines

/-!
# A `READ`, call by call

`__alloc`, `__free` and `__write` hold `mmvm_lock` from their first access to their last, `__read`
takes no lock: between the calls it makes, the other CPUs, the loader and the timer take turns.
Here each of these calls is a turn of its CPU, and `run` of a `READ` is but the beginning of it.

In a run in which no other access to the memory comes between the calls of a `READ`, this makes no
difference: whenever no `READ` is under way, the threads and the memory are where the same turns,
without those that go on with a `READ`, take the model in which an instruction is one turn
(`reads_atomic`). So what is proved of that model holds of these runs. Of others it need not: a
`READ` that comes between the calls of another one may go through a pointer that it would not find
before or after it.

## The model

A call of `find_victim_page`, `MEMPHY_get_freefp` or `enlist_pgn_node` is one turn, and the region
is looked up in one. So two CPUs are never in the same call at once here; in the program they may
be, when their `READ`s overlap.
-/

namespace Ossim.Mem

/-- Where a CPU is in `__read`. -/
inductive ReadLoc where
  /-- At `get_symrg_byid`. -/
  | symrg (rgid : Word) (offset : Addr)
  /-- In `pg_getpage`, at the test of the entry and `find_victim_page`. -/
  | victim (pgn : Word)
  /-- At `MEMPHY_get_freefp`. -/
  | frame (pgn : Word)
  /-- At `enlist_pgn_node`. -/
  | enlist (pgn : Word)
  deriving DecidableEq

/-- The next call of `__read`, and where the CPU is then; `none` inside is past `return`. -/
def readCall : ReadLoc → Store → Option (Option ReadLoc × Store)
  | .symrg rgid offset, s => do
    if !getSymrgById rgid then none
    else
      let i ← symrg rgid
      some (some (.victim (pagingPgn (toInt ((s.mm.symrgtbl i).rgStart + offset)))), s)
  | .victim pgn, s => do
    if pagingPagePresent (pteGetEntry (ofInt pgn)) then some (none, s)
    else
      let (vicpgn, mm) ← findVictimPage s.mm
      some (vicpgn.map fun _ => .frame pgn, { s with mm := mm })
  | .frame pgn, s =>
    match memphyGetFreefp s.freeFpList with
    | none => some (none, s)
    | some (_, fpns) => some (some (.enlist pgn), { s with freeFpList := fpns })
  | .enlist pgn, s => some (none, { s with mm := enlistPgnNode s.mm (ofInt pgn) })

/-- What is left of `__read`, in one turn. -/
def readRest : ReadLoc → Store → Option Store
  | .symrg rgid offset, s => (read rgid offset s).map Prod.snd
  | .victim pgn, s => (pgGetpage pgn s).map Prod.snd
  | .frame pgn, s => some (match memphyGetFreefp s.freeFpList with
      | none => s
      | some (_, fpns) => ⟨enlistPgnNode s.mm (ofInt pgn), fpns⟩)
  | .enlist pgn, s => some { s with mm := enlistPgnNode s.mm (ofInt pgn) }

/-- What is left is the next call, and what is left then. -/
theorem readRest_eq (loc : ReadLoc) (s : Store) :
    readRest loc s =
      (readCall loc s).bind fun r => r.1.elim (some r.2) fun loc => readRest loc r.2 := by
  cases loc with
  | symrg rgid offset =>
    simp only [readRest, readCall, read]
    split_ifs
    · rfl
    · cases symrg rgid with
      | none => rfl
      | some i =>
        simp only [Option.bind_eq_bind, Option.bind_some, Option.elim_some, pgGetval, pgAccess]
        cases pgGetpage (pagingPgn (toInt ((s.mm.symrgtbl i).rgStart + offset))) s <;> rfl
  | victim pgn =>
    simp only [readRest, readCall, pgGetpage]
    split_ifs
    · rfl
    · cases findVictimPage s.mm with
      | none => rfl
      | some r =>
        obtain ⟨vicpgn, mm⟩ := r
        cases vicpgn with
        | none => rfl
        | some pgn' =>
          simp only [Option.bind_eq_bind, Option.bind_some, Option.map_some, Option.elim_some]
          cases memphyGetFreefp s.freeFpList <;> rfl
  | frame pgn =>
    simp only [readRest, readCall]
    cases memphyGetFreefp s.freeFpList <;> rfl
  | enlist pgn => rfl

end Ossim.Mem

namespace Ossim.System

open Machine Simulator

variable {κ τ : Type} {cfg : Config Mem.Inst}

/-! ### The memory -/

/-- What the processes reach through block `block` is `store`. -/
def setStore (block : ℕ) (store : Mem.Store) (m : Mem.State) : Mem.State :=
  { m with heap := Function.update m.heap block store.mm, freeFpList := store.freeFpList }

/-- A call of `__read`, on the memory there is. -/
def readTurn (loc : Mem.ReadLoc) (m : Mem.State) : Option (Option Mem.ReadLoc × Mem.State) := do
  let block ← (m.krnl .os).mm
  let (loc, store) ← Mem.readCall loc ⟨m.heap block, m.freeFpList⟩
  some (loc, setStore block store m)

/-- The rest of `__read`, on the memory there is. -/
def finished (loc : Mem.ReadLoc) (m : Mem.State) : Option Mem.State := do
  let block ← (m.krnl .os).mm
  let store ← Mem.readRest loc ⟨m.heap block, m.freeFpList⟩
  some (setStore block store m)

/-- The instruction that process `p` is at. -/
def fetched (p : ℕ) (m : Mem.State) : Option Mem.Inst := do
  let proc ← m.pcbs p
  proc.code[proc.pc]?

/-- Where a `READ` begins. -/
def entry (ins : Mem.Inst) : Option Mem.ReadLoc :=
  match ins.opcode with
  | .read => some (.symrg (Mem.toInt ins.arg0) ins.arg1)
  | _ => none

/-- `proc->pc++`. -/
def nextPc (p : ℕ) (m : Mem.State) : Mem.State :=
  { m with
    pcbs := Function.update m.pcbs p ((m.pcbs p).map fun proc => { proc with pc := proc.pc + 1 }) }

/-- The instruction accesses the memory that the processes share. -/
def accessesMemory (ins : Mem.Inst) : Bool :=
  match ins.opcode with
  | .alloc | .free | .read | .write => true
  | _ => false

/-- So does a turn that executes such an instruction, or stores a block. -/
def touches (m : Mem.State) : Mem.Turn → Bool
  | .load _ => true
  | .run p => (fetched p m).any accessesMemory
  | .finish _ => false

/-! ### The threads and the memory -/

/-- The threads and the memory, and where the CPUs are in `__read`. -/
structure CallState (cfg : Config Mem.Inst) (τ : Type) extends State cfg τ where
  /-- Where each CPU is in `__read`, if it is in it. -/
  reading : Fin cfg.numCpus → Option Mem.ReadLoc

/-- The `READ` that a turn begins, and the process it is of. -/
def begins (a : Turn cfg.numCpus κ) (s : State cfg τ) : Option (ℕ × Mem.ReadLoc) :=
  match memoryTurn a s with
  | some (.run p) => ((fetched p s.memory).bind entry).map fun loc => (p, loc)
  | _ => none

/-- A turn of CPU `c`, which goes on with its `READ`, begins one, or does what it does otherwise. -/
def cpuCall (clk : Clock (Party cfg.numCpus) κ τ) (c : Fin cfg.numCpus) (a : Turn cfg.numCpus κ)
    (s : CallState cfg τ) : Option (CallState cfg τ) :=
  match s.reading c with
  | some loc => (readTurn loc s.memory).map fun r =>
      { s with memory := r.2, reading := Function.update s.reading c r.1 }
  | none =>
    match begins a s.toState with
    | some (p, loc) => (Simulator.step clk (.cpu c) s.threads).map fun threads =>
        { s with
          threads := threads
          memory := nextPc p s.memory
          reading := Function.update s.reading c (some loc) }
    | none => (step clk a s.toState).map fun s' => { s with toState := s' }

/-- A step, where a call of `__read` is one. -/
def callStep (clk : Clock (Party cfg.numCpus) κ τ) (a : Turn cfg.numCpus κ) (s : CallState cfg τ) :
    Option (CallState cfg τ) :=
  match a.who with
  | .cpu c => cpuCall clk c a s
  | _ => (step clk a s.toState).map fun s' => { s with toState := s' }

/-- A turn; one that has no result leaves everything as it is. -/
def callMove (clk : Clock (Party cfg.numCpus) κ τ) :
    Turn cfg.numCpus κ → CallState cfg τ → CallState cfg τ := stutter (callStep clk)

/-- At the beginning no CPU is in `__read`. -/
def callInitial (cfg : Config Mem.Inst) (t : τ) (heap : ℕ → Mem.Mm) (freeFpList : List Mem.Addr) :
    CallState cfg τ where
  toState := initial cfg t heap freeFpList
  reading := fun _ => none

/-- The state after the turns of a schedule. -/
def callAfter (clk : Clock (Party cfg.numCpus) κ τ) (t : τ) (heap : ℕ → Mem.Mm)
    (freeFpList : List Mem.Addr) (as : List (Turn cfg.numCpus κ)) : CallState cfg τ :=
  run (callMove clk) as (callInitial cfg t heap freeFpList)

/-- The CPU whose turn it is. -/
def cpuOf (a : Turn cfg.numCpus κ) : Option (Fin cfg.numCpus) :=
  match a.who with
  | .cpu c => some c
  | _ => none

/-- The turn goes on with a `READ`. -/
def goesOn (a : Turn cfg.numCpus κ) (s : CallState cfg τ) : Bool :=
  ((cpuOf a).bind s.reading).isSome

/-- The turn is an access to the memory, or part of one. -/
def accesses (a : Turn cfg.numCpus κ) (s : CallState cfg τ) : Bool :=
  goesOn a s || (memoryTurn a s.toState).any (touches s.memory)

/-- It does not come between the calls of a `READ`, if it is not a call of the same one. -/
def Apart (s : CallState cfg τ) (a : Turn cfg.numCpus κ) : Prop :=
  accesses a s = true → ∀ c, s.reading c ≠ none → cpuOf a = some c

instance (s : CallState cfg τ) (a : Turn cfg.numCpus κ) : Decidable (Apart s a) :=
  inferInstanceAs (Decidable (_ → ∀ _, _ → _))

/-- The turns that do not go on with a `READ`. -/
def kept (a : Turn cfg.numCpus κ) (s : CallState cfg τ) : List (Turn cfg.numCpus κ) :=
  if goesOn a s then [] else [a]

variable {block p : ℕ} {store : Mem.Store} {loc : Mem.ReadLoc} {m m' : Mem.State}

/-! ### The rest of a `READ` -/

theorem finished_eq (loc : Mem.ReadLoc) (m : Mem.State) :
    finished loc m =
      (readTurn loc m).bind fun r => r.1.elim (some r.2) fun loc => finished loc r.2 := by
  simp only [finished, readTurn, Option.bind_eq_bind]
  cases hblock : (m.krnl .os).mm with
  | none => rfl
  | some block =>
    simp only [Option.bind_some]
    rw [Mem.readRest_eq]
    cases Mem.readCall loc ⟨m.heap block, m.freeFpList⟩ with
    | none => rfl
    | some r =>
      obtain ⟨loc', store⟩ := r
      cases loc' with
      | none => rfl
      | some loc' =>
        simp only [Option.bind_some, Option.elim_some, setStore, hblock, Function.update_self,
          Function.update_idem]

/-- `READ` is what is left when it has begun. -/
theorem turn_of_entry {ins : Mem.Inst} (hins : fetched p m = some ins)
    (hloc : entry ins = some loc) :
    Mem.turn (codes cfg) (.run p) m = finished loc (nextPc p m) := by
  obtain ⟨opcode, arg0, arg1, arg2, arg3⟩ := ins
  cases opcode <;> cases hloc
  obtain ⟨⟨code, pc, krnl⟩, hproc, hget⟩ := Option.bind_eq_some_iff.mp hins
  cases krnl
  change code[pc]? = _ at hget
  simp only [Mem.turn, Mem.runInst, hproc, hget, finished, nextPc, Option.bind_eq_bind,
    Option.bind_some, Option.map_some]
  cases (m.krnl .os).mm with
  | none => rfl
  | some block =>
    simp only [Option.bind_some, Mem.execute, Mem.libread, Mem.readRest]
    cases Mem.read (Mem.toInt arg0) arg1 ⟨m.heap block, m.freeFpList⟩ <;> rfl

/-! ### A turn that is no access -/

/-- What is left depends on the store, and on nothing else. -/
theorem finished_pcbs (loc : Mem.ReadLoc) (m : Mem.State) (pcbs : ℕ → Option Mem.Pcb) :
    finished loc { m with pcbs := pcbs } =
      (finished loc m).map fun m => { m with pcbs := pcbs } := by
  simp only [finished, Option.bind_eq_bind]
  cases (m.krnl .os).mm with
  | none => rfl
  | some block =>
    simp only [Option.bind_some]
    cases Mem.readRest loc ⟨m.heap block, m.freeFpList⟩ <;> rfl

theorem execute_of_not_accesses {ins : Mem.Inst} (h : accessesMemory ins = false) :
    ∃ stat : Option ℤ, ∀ store, Mem.execute ins store = stat.map fun stat => (stat, store) := by
  obtain ⟨opcode, arg0, arg1, arg2, arg3⟩ := ins
  cases opcode with
  | alloc | free | read | write => cases h
  | syscall =>
    refine ⟨(Mem.syscall (Mem.toInt arg0) ⟨arg1, arg2, arg3⟩).map Prod.fst, fun store => ?_⟩
    simp only [Mem.execute, Mem.libsyscall]
    cases Mem.syscall (Mem.toInt arg0) ⟨arg1, arg2, arg3⟩ <;> rfl
  | copyToUser => exact ⟨some 1, fun _ => rfl⟩
  | _ => exact ⟨some 0, fun _ => rfl⟩

/-- A turn that is no access changes nothing but the processes, and these in the same way whatever is
in the block and whatever frames are free. -/
theorem turn_quiet {b : Mem.Turn} (hquiet : touches m b = false)
    (hblock : ∀ n, (m.krnl .os).mm = some n → n = block) :
    ∃ out : Option (ℕ → Option Mem.Pcb),
      Mem.turn (codes cfg) b m = (out.map fun pcbs => { m with pcbs := pcbs }) ∧
      ∀ store, Mem.turn (codes cfg) b (setStore block store m) =
        out.map fun pcbs => { setStore block store m with pcbs := pcbs } := by
  cases b with
  | load junk => cases hquiet
  | finish p =>
    simp only [Mem.turn, Mem.freeProc, setStore]
    cases m.pcbs p with
    | none => exact ⟨none, rfl, fun _ => rfl⟩
    | some proc =>
      simp only [Option.bind_eq_bind, Option.bind_some]
      split_ifs
      · exact ⟨some (Function.update m.pcbs p none), rfl, fun _ => rfl⟩
      · exact ⟨none, rfl, fun _ => rfl⟩
  | run p =>
    simp only [touches, fetched, Option.bind_eq_bind] at hquiet
    simp only [Mem.turn, Mem.runInst, setStore]
    cases hproc : m.pcbs p with
    | none => exact ⟨none, rfl, fun _ => rfl⟩
    | some proc =>
      obtain ⟨code, pc, krnl⟩ := proc
      cases krnl
      simp only [hproc, Option.bind_eq_bind, Option.bind_some] at hquiet ⊢
      cases hins : code[pc]? with
      | none => exact ⟨some m.pcbs, rfl, fun _ => rfl⟩
      | some ins =>
        rw [hins, Option.any_some] at hquiet
        obtain ⟨stat, hexec⟩ := execute_of_not_accesses hquiet
        simp only [hexec]
        cases hmm : (m.krnl .os).mm with
        | none => exact ⟨none, rfl, fun _ => rfl⟩
        | some n =>
          obtain rfl := hblock n hmm
          cases stat with
          | none => exact ⟨none, rfl, fun _ => rfl⟩
          | some stat =>
            refine ⟨some (Function.update m.pcbs p (some ⟨code, pc + 1, .os⟩)), ?_, fun store => ?_⟩
            · simp only [Option.map_some, Option.bind_some, Function.update_eq_self]
            · simp only [Option.map_some, Option.bind_some, Function.update_self,
                Function.update_idem]

variable {clk : Clock (Party cfg.numCpus) κ τ} {a : Turn cfg.numCpus κ} {s s' : State cfg τ}

/-- Such a turn is the same before and after what is left of a `READ`. -/
theorem step_quiet (clk : Clock (Party cfg.numCpus) κ τ)
    (hquiet : (memoryTurn a s).any (touches s.memory) = false)
    (hblock : ∀ n, (s.memory.krnl .os).mm = some n → n = block) :
    ∃ out : Option (Simulator.State cfg τ × (ℕ → Option Mem.Pcb)),
      step clk a s = (out.map fun r => ⟨r.1, { s.memory with pcbs := r.2 }, mapped a s⟩) ∧
      ∀ store, step clk a { s with memory := setStore block store s.memory } =
        out.map fun r => ⟨r.1, { setStore block store s.memory with pcbs := r.2 }, mapped a s⟩ := by
  have hmemory : ∃ out : Option (ℕ → Option Mem.Pcb),
      optional (Mem.turn (codes cfg)) (memoryTurn a s) s.memory =
        (out.map fun pcbs => { s.memory with pcbs := pcbs }) ∧
      ∀ store, optional (Mem.turn (codes cfg)) (memoryTurn a s) (setStore block store s.memory) =
        out.map fun pcbs => { setStore block store s.memory with pcbs := pcbs } := by
    cases hturn : memoryTurn a s with
    | none => exact ⟨some s.memory.pcbs, rfl, fun _ => rfl⟩
    | some b =>
      rw [hturn, Option.any_some] at hquiet
      exact turn_quiet hquiet hblock
  obtain ⟨out, hbefore, hafter⟩ := hmemory
  -- the threads know nothing of the store
  have hstep : ∀ m, step clk a { s with memory := m } =
      (optional (Simulator.step clk) (threadTurn a s) s.threads).bind fun threads =>
        (optional (Mem.turn (codes cfg)) (memoryTurn a s) m).map fun memory =>
          ⟨threads, memory, mapped a s⟩ := by
    intro m
    refine Option.bind_congr fun threads _ => ?_
    exact Option.map_eq_bind.symm
  cases hthreads : optional (Simulator.step clk) (threadTurn a s) s.threads with
  | none =>
    refine ⟨none, ?_, fun store => ?_⟩
    · rw [hstep s.memory, hthreads]
      rfl
    · rw [hstep, hthreads]
      rfl
  | some threads =>
    refine ⟨out.map fun pcbs => (threads, pcbs), ?_, fun store => ?_⟩
    · rw [hstep s.memory, hthreads, Option.bind_some, hbefore, Option.map_map, Option.map_map]
      rfl
    · rw [hstep, hthreads, Option.bind_some, hafter, Option.map_map, Option.map_map]
      rfl

/-! ### The whole `READ` at its beginning -/

/-- CPU `c` alone is in `__read`, at `loc`. -/
structure Sole (s : CallState cfg τ) (c : Fin cfg.numCpus) (loc : Mem.ReadLoc) : Prop where
  /-- It is there. -/
  at_loc : s.reading c = some loc
  /-- No other one is in it. -/
  others : ∀ c', c' ≠ c → s.reading c' = none

/-- With what is left of the `READ` under way, if there is one, `s` is `t`; where what is left goes
through a pointer it may not follow, the `READ` will never be over. -/
inductive Completes (s : CallState cfg τ) (t : State cfg τ) : Prop where
  /-- No `READ` is under way. -/
  | idle (hidle : ∀ c, s.reading c = none) (ht : t = s.toState)
  /-- One is, and can be finished. -/
  | reading (c : Fin cfg.numCpus) (loc : Mem.ReadLoc) (m : Mem.State) (hsole : Sole s c loc)
      (hm : finished loc s.memory = some m) (ht : t = { s.toState with memory := m })
  /-- One is, and cannot. -/
  | stuck (c : Fin cfg.numCpus) (loc : Mem.ReadLoc) (hsole : Sole s c loc)
      (hm : finished loc s.memory = none)

variable {s : CallState cfg τ} {t : State cfg τ} {c : Fin cfg.numCpus}

theorem begins_eq_some_iff {b : ℕ × Mem.ReadLoc} {s : State cfg τ} :
    begins a s = some b ↔ memoryTurn a s = some (.run b.1) ∧
      ∃ ins, fetched b.1 s.memory = some ins ∧ entry ins = some b.2 := by
  obtain ⟨p, loc⟩ := b
  rw [begins]
  split
  · next q hq =>
    simp only [hq, Option.map_eq_some_iff, Option.bind_eq_some_iff, Prod.mk.injEq, Option.some.injEq,
      Mem.Turn.run.injEq]
    constructor
    · rintro ⟨loc', ⟨ins, hins, hloc⟩, rfl, rfl⟩
      exact ⟨rfl, ins, hins, hloc⟩
    · rintro ⟨rfl, ins, hins, hloc⟩
      exact ⟨loc, ⟨ins, hins, hloc⟩, rfl, rfl⟩
  · next hno =>
    refine iff_of_false nofun ?_
    rintro ⟨hq, -⟩
    exact hno p hq

/-- A turn that begins a `READ` is an access. -/
theorem accesses_of_begins {b : ℕ × Mem.ReadLoc} (h : begins a s.toState = some b) :
    accesses a s = true := by
  obtain ⟨hturn, ins, hins, hentry⟩ := begins_eq_some_iff.mp h
  have haccess : accessesMemory ins = true := by
    obtain ⟨opcode, arg0, arg1, arg2, arg3⟩ := ins
    cases opcode <;> first | rfl | cases hentry
  simp only [accesses, hturn, Option.any_some, touches, hins, haccess, Bool.or_true]

theorem who_of_begins {b : ℕ × Mem.ReadLoc} {s : State cfg τ} (h : begins a s = some b) :
    ∃ c, a.who = .cpu c := by
  obtain ⟨hturn, -⟩ := begins_eq_some_iff.mp h
  obtain ⟨who, junk⟩ := a
  cases who with
  | cpu c => exact ⟨c, rfl⟩
  | ld =>
    simp only [memoryTurn] at hturn
    split_ifs at hturn
    cases hturn
  | clock k => cases hturn

/-- A turn that neither goes on with a `READ` nor begins one is what it is. -/
theorem callStep_of_plain (clk : Clock (Party cfg.numCpus) κ τ) (hgo : goesOn a s = false)
    (hbegin : begins a s.toState = none) :
    callStep clk a s = (step clk a s.toState).map fun s' => { s with toState := s' } := by
  obtain ⟨who, junk⟩ := a
  cases who with
  | cpu c =>
    have hnone : s.reading c = none := by simpa [goesOn, cpuOf] using hgo
    simp only [callStep, cpuCall, hnone, hbegin]
  | ld => rfl
  | clock k => rfl

theorem goesOn_of_idle (a : Turn cfg.numCpus κ) (hidle : ∀ c, s.reading c = none) :
    goesOn a s = false := by
  rw [goesOn]
  cases cpuOf a with
  | none => rfl
  | some c => rw [Option.bind_some, hidle c]; rfl

theorem Sole.who_eq (h : Sole s c loc) (hgo : goesOn a s = true) : a.who = .cpu c := by
  obtain ⟨who, junk⟩ := a
  cases who with
  | cpu c' =>
    by_contra hne
    have hother := h.others c' fun heq => hne (congrArg _ heq)
    simp [goesOn, cpuOf, hother] at hgo
  | ld => cases hgo
  | clock k => cases hgo

theorem Sole.update {loc' : Mem.ReadLoc} (h : Sole s c loc) (s' : State cfg τ) :
    Sole { s with toState := s', reading := Function.update s.reading c (some loc') } c loc' where
  at_loc := Function.update_self ..
  others := fun c' hc' => (Function.update_of_ne hc' _ _).trans (h.others c' hc')

/-- A call of the `READ` under way leaves less of it. -/
theorem Sole.call (h : Sole s c loc) (hwho : a.who = .cpu c) {r : Option Mem.ReadLoc × Mem.State}
    (hcall : readTurn loc s.memory = some r) :
    callMove clk a s = { s with memory := r.2, reading := Function.update s.reading c r.1 } := by
  refine stutter_of_some ?_
  simp only [callStep, hwho, cpuCall, h.at_loc, hcall, Option.map_some]

/-- Going on with the `READ` under way makes no difference to what it comes to. -/
theorem Completes.call (h : Completes s t) (hgo : goesOn a s = true) :
    Completes (callMove clk a s) t := by
  cases h with
  | idle hidle ht => rw [goesOn_of_idle a hidle] at hgo; cases hgo
  | reading c loc m hsole hm ht =>
    have hwho := hsole.who_eq hgo
    rw [finished_eq] at hm
    obtain ⟨⟨loc', m'⟩, hcall, hm⟩ := Option.bind_eq_some_iff.mp hm
    rw [hsole.call hwho hcall]
    cases loc' with
    | none =>
      obtain rfl := Option.some.inj hm
      refine .idle (fun c' => ?_) ht
      by_cases hc : c' = c
      · rw [hc]
        exact Function.update_self ..
      · exact (Function.update_of_ne hc _ _).trans (hsole.others c' hc)
    | some loc' => exact .reading c loc' m (hsole.update _) hm ht
  | stuck c loc hsole hm =>
    have hwho := hsole.who_eq hgo
    rw [finished_eq] at hm
    cases hcall : readTurn loc s.memory with
    | none =>
      have hstep : callStep clk a s = none := by
        simp only [callStep, hwho, cpuCall, hsole.at_loc, hcall, Option.map_none]
      rw [callMove, stutter_of_none hstep]
      exact .stuck c loc hsole (by rw [finished_eq, hcall]; rfl)
    | some r =>
      obtain ⟨loc', m'⟩ := r
      rw [hcall, Option.bind_some] at hm
      rw [hsole.call hwho hcall]
      cases loc' with
      | none => cases hm
      | some loc' => exact .stuck c loc' (hsole.update _) hm

/-- A turn that begins a `READ` is the whole of it. -/
theorem Completes.beginRead {b : ℕ × Mem.ReadLoc} (hidle : ∀ c, s.reading c = none)
    (hb : begins a s.toState = some b) :
    Completes (callMove clk a s) (move clk a s.toState) := by
  obtain ⟨hturn, ins, hins, hentry⟩ := begins_eq_some_iff.mp hb
  obtain ⟨c, hwho⟩ := who_of_begins hb
  have hcall : callStep clk a s = (Simulator.step clk (.cpu c) s.threads).map fun threads =>
      { s with
        threads := threads
        memory := nextPc b.1 s.memory
        reading := Function.update s.reading c (some b.2) } := by
    simp only [callStep, hwho, cpuCall, hidle c, hb]
  have hstep : step clk a s.toState = (Simulator.step clk (.cpu c) s.threads).bind fun threads =>
      (finished b.2 (nextPc b.1 s.memory)).map fun memory => ⟨threads, memory, s.mapped⟩ := by
    have hthread : threadTurn a s.toState = some (.cpu c) := by rw [threadTurn, hwho]
    have hmapped : mapped a s.toState = s.mapped := by rw [mapped, hwho]
    rw [step, hthread, hturn, hmapped, optional, optional, turn_of_entry hins hentry]
    simp only [Option.bind_eq_bind, Option.map_eq_bind]
    rfl
  cases hthreads : Simulator.step clk (.cpu c) s.threads with
  | none =>
    rw [hthreads] at hcall hstep
    rw [callMove, move, stutter_of_none hcall, stutter_of_none hstep]
    exact .idle hidle rfl
  | some threads =>
    rw [hthreads] at hcall hstep
    rw [callMove, stutter_of_some hcall]
    have hsole : Sole { s with
        threads := threads
        memory := nextPc b.1 s.memory
        reading := Function.update s.reading c (some b.2) } c b.2 :=
      ⟨Function.update_self .., fun c' hc' => (Function.update_of_ne hc' _ _).trans (hidle c')⟩
    cases hm : finished b.2 (nextPc b.1 s.memory) with
    | none => exact .stuck c b.2 hsole hm
    | some m =>
      rw [hm] at hstep
      rw [move, stutter_of_some hstep]
      exact .reading c b.2 m hsole hm rfl

/-- A turn that neither goes on with a `READ` nor begins one, where none is under way. -/
theorem Completes.plain (hidle : ∀ c, s.reading c = none) (hb : begins a s.toState = none) :
    Completes (callMove clk a s) (move clk a s.toState) := by
  have hcall := callStep_of_plain clk (goesOn_of_idle a hidle) hb
  cases hstep : step clk a s.toState with
  | none =>
    rw [hstep] at hcall
    rw [callMove, move, stutter_of_none hcall, stutter_of_none hstep]
    exact .idle hidle rfl
  | some s' =>
    rw [hstep] at hcall
    rw [callMove, move, stutter_of_some hcall, stutter_of_some hstep]
    exact .idle hidle rfl

/-- A turn that is no access is the same before what is left of a `READ` and after it. -/
theorem Completes.quiet (h : Completes s t) (hgo : goesOn a s = false)
    (hquiet : (memoryTurn a s.toState).any (touches s.memory) = false) :
    Completes (callMove clk a s) (move clk a t) := by
  have hbegin : begins a s.toState = none := by
    by_contra hsome
    obtain ⟨b, hb⟩ := Option.ne_none_iff_exists'.mp hsome
    have haccess := accesses_of_begins hb
    rw [accesses, hgo, hquiet] at haccess
    cases haccess
  have hcall := callStep_of_plain clk hgo hbegin
  cases h with
  | idle hidle ht =>
    rw [ht]
    exact .plain hidle hbegin
  | reading c loc m hsole hm ht =>
    obtain ⟨block, hblock, hrest⟩ := Option.bind_eq_some_iff.mp hm
    obtain ⟨store, -, hset⟩ := Option.bind_eq_some_iff.mp hrest
    obtain rfl := Option.some.inj hset
    obtain ⟨out, hbefore, hafter⟩ := step_quiet clk hquiet fun n hn =>
      Option.some.inj (hn.symm.trans hblock)
    rw [hbefore] at hcall
    have hafter := hafter store
    rw [← ht] at hafter
    cases out with
    | none =>
      rw [callMove, move, stutter_of_none hcall, stutter_of_none hafter]
      exact .reading c loc _ hsole hm ht
    | some r =>
      rw [callMove, move, stutter_of_some hcall, stutter_of_some hafter]
      exact .reading c loc _ ⟨hsole.at_loc, hsole.others⟩ (by rw [finished_pcbs, hm]; rfl) rfl
  | stuck c loc hsole hm =>
    have hblock : ∀ n, (s.memory.krnl .os).mm = some n → n = (s.memory.krnl .os).mm.getD 0 := by
      intro n hn
      rw [hn]
      rfl
    obtain ⟨out, hbefore, -⟩ := step_quiet clk hquiet hblock
    rw [hbefore] at hcall
    cases out with
    | none =>
      rw [callMove, stutter_of_none hcall]
      exact .stuck c loc hsole hm
    | some r =>
      rw [callMove, stutter_of_some hcall]
      exact .stuck c loc ⟨hsole.at_loc, hsole.others⟩ (by rw [finished_pcbs, hm]; rfl)

/-- Where an access that goes on with no `READ` may be made, none is under way. -/
theorem Apart.idle (h : Apart s a) (haccess : accesses a s = true) (hgo : goesOn a s = false)
    (c : Fin cfg.numCpus) : s.reading c = none := by
  by_contra hreading
  rw [goesOn, h haccess c hreading, Option.bind_some, Option.isSome_eq_false_iff,
    Option.isNone_iff_eq_none] at hgo
  exact hreading hgo

theorem Completes.eq_of_idle (h : Completes s t) (hidle : ∀ c, s.reading c = none) :
    t = s.toState := by
  cases h with
  | idle _ ht => exact ht
  | reading c loc m hsole =>
    have hloc := hsole.at_loc
    rw [hidle c] at hloc
    cases hloc
  | stuck c loc hsole =>
    have hloc := hsole.at_loc
    rw [hidle c] at hloc
    cases hloc

/-- A turn that does not come between the calls of a `READ`. -/
theorem Completes.step (h : Completes s t) (hapart : Apart s a) :
    Completes (callMove clk a s) (run (move clk) (kept a s) t) := by
  rw [kept]
  cases hgo : goesOn a s with
  | true => exact h.call hgo
  | false =>
    show Completes (callMove clk a s) (move clk a t)
    cases haccess : accesses a s with
    | false =>
      rw [accesses, hgo, Bool.false_or] at haccess
      exact h.quiet hgo haccess
    | true =>
      have hidle := hapart.idle haccess hgo
      rw [h.eq_of_idle hidle]
      cases hb : begins a s.toState with
      | none => exact .plain hidle hb
      | some b => exact .beginRead hidle hb

/-- **A `READ` that nothing comes between is one turn.** In any run in which no access to the memory
comes between the calls of a `READ`: whenever no `READ` is under way, the threads and the memory are
where the turns, without those that go on with a `READ`, take the model in which an instruction is
one turn. -/
theorem reads_atomic (cfg : Config Mem.Inst) (clk : Clock (Party cfg.numCpus) κ τ) (t : τ)
    (heap : ℕ → Mem.Mm) (freeFpList : List Mem.Addr) (as : List (Turn cfg.numCpus κ))
    (hapart : Along (callMove clk) Apart as (callInitial cfg t heap freeFpList))
    (hidle : ∀ c, (callAfter clk t heap freeFpList as).reading c = none) :
    (callAfter clk t heap freeFpList as).toState = after clk t heap freeFpList
      (output (callMove clk) kept as (callInitial cfg t heap freeFpList)) := by
  have hstart : Completes (callInitial cfg t heap freeFpList) (initial cfg t heap freeFpList) :=
    .idle (fun _ => rfl) rfl
  have hrun := hapart.simulates (fun a s t hapart h => h.step hapart) hstart
  exact (hrun.eq_of_idle hidle).symm

/-- Two CPUs, and two processes that read a byte each. -/
def twoReaders : Config Mem.Inst where
  timeSlot := 1
  numCpus := 2
  numProcesses := 2
  text := fun _ => [⟨.read, 0, 0, 0, 0⟩]
  prio := fun _ => 0
  startTime := fun _ => 0

/-- Turns of one thread, with a block for `malloc` to return that has two pages listed. -/
def blockTurns (n : ℕ)
    (who : Simulator.Turn twoReaders.numCpus (Timer.Internal (Party twoReaders.numCpus))) :
    List (Turn twoReaders.numCpus (Timer.Internal (Party twoReaders.numCpus))) :=
  List.replicate n ⟨who, ⟨some [], fun _ => ⟨0, 0⟩, some [7, 3]⟩⟩

/-- Turns of the CPUs, so many of CPU `0` and then so many of CPU `1`. -/
def readersTurns (n₀ n₁ : ℕ) :
    List (Turn twoReaders.numCpus (Timer.Internal (Party twoReaders.numCpus))) :=
  blockTurns n₀ (.cpu ⟨0, Nat.two_pos⟩) ++ blockTurns n₁ (.cpu ⟨1, Nat.one_lt_two⟩)

/-- The loader hands in both processes, each CPU takes one, and the next slot begins. -/
def takeTurns : List (Turn twoReaders.numCpus (Timer.Internal (Party twoReaders.numCpus))) :=
  blockTurns 12 .ld ++ readersTurns 3 3 ++ blockTurns 9 (.clock .timer)

/-- CPU `1` leaves `next_slot` while CPU `0` is in its `READ`, and begins its own after that. -/
def oneByOne : List (Turn twoReaders.numCpus (Timer.Internal (Party twoReaders.numCpus))) :=
  takeTurns ++ readersTurns 3 1 ++ readersTurns 3 5

theorem reads_atomic_twoReaders :
    (callAfter (osClock twoReaders) Timer.startTimer (fun _ => Mem.blank) [5, 6] oneByOne).toState =
      after (osClock twoReaders) Timer.startTimer (fun _ => Mem.blank) [5, 6]
        (output (callMove (osClock twoReaders)) kept oneByOne
          (callInitial twoReaders Timer.startTimer (fun _ => Mem.blank) [5, 6])) :=
  reads_atomic twoReaders (osClock twoReaders) Timer.startTimer (fun _ => Mem.blank) [5, 6] oneByOne
    (by decide +kernel) (by decide +kernel)

/-- When CPU `0` has taken page `3` off the list and has enlisted none, CPU `1` comes to
`find_victim_page` with one page listed, and goes through the predecessor it does not have. -/
example : (callStep (osClock twoReaders) ⟨.cpu ⟨1, Nat.one_lt_two⟩, Mem.blank⟩
    (callAfter (osClock twoReaders) Timer.startTimer (fun _ => Mem.blank) [5, 6]
      (takeTurns ++ readersTurns 4 3))).isNone := by
  decide +kernel

end Ossim.System
