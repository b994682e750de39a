import Ossim.Mem.Isolation
import Ossim.Simulator.Ownership

/-!
# The simulator and its memory

The threads of `Simulator/Routines` and the memory of `Mem/Isolation` put together: `run(proc)`
executes the next instruction of its process on the memory that `proc->krnl->mm` points to, and
the loader stores a new `mm_struct` there before it hands a process to the scheduler.

## The model

A turn is a turn of the threads, and with it goes what is in the block that `malloc` returns if
the turn calls it. Storing the block and calling `add_proc` are two turns of the loader
(`mapped`): another thread may come in between. A turn that follows a pointer it may not follow
has no result: the program ends there.

An instruction is one turn. `__alloc`, `__free` and `__write` hold `mmvm_lock` from their first
access to their last; `__read` takes no lock. So the runs of this model are those of the program in
which no `READ` overlaps another access (`ReadCalls`): while a CPU is in `__read`, no other one
accesses the memory, and the loader stores no block. Where two overlap, a page may be lost or a
frame taken twice, and nothing is said here of what comes after.

What the threads do is a run of the one model, what is done to the memory a run of the other, and
both know the same processes (`refines`).
-/

namespace Ossim.System

open Machine Simulator

variable {κ τ : Type}

/-- The threads and the memory. -/
structure State (cfg : Config Mem.Inst) (τ : Type) where
  /-- The threads. -/
  threads : Simulator.State cfg τ
  /-- The memory. -/
  memory : Mem.State
  /-- The loader is past `init_mm` and at `add_proc`. -/
  mapped : Bool

/-- A turn of the threads, and what is in the block that `malloc` returns. -/
structure Turn (n : ℕ) (κ : Type) where
  /-- Whose turn it is. -/
  who : Simulator.Turn n κ
  /-- What is in the block. -/
  junk : Mem.Mm

variable {cfg : Config Mem.Inst}

/-- The codes of the processes, as the memory knows them. -/
def codes (cfg : Config Mem.Inst) : List (List Mem.Inst) := List.ofFn cfg.text

/-- The threads and the memory at the beginning. -/
def initial (cfg : Config Mem.Inst) (t : τ) (heap : ℕ → Mem.Mm) (freeFpList : List Mem.Addr) :
    State cfg τ where
  threads := Simulator.initial cfg t
  memory := Mem.initial heap freeFpList
  mapped := false

/-- What a turn of CPU `c` is to the memory. -/
def cpuMemory (c : Fin cfg.numCpus) (s : Simulator.State cfg τ) : Option Mem.Turn :=
  match s.cpu c with
  | ⟨.run, some p, _⟩ => some (.run p)
  | ⟨.top, some p, _⟩ => if s.pc p = cfg.size p then some (.finish p) else none
  | _ => none

/-- What a turn is to the memory. -/
def memoryTurn (a : Turn cfg.numCpus κ) (s : State cfg τ) : Option Mem.Turn :=
  match a.who with
  | .cpu c => cpuMemory c s.threads
  | .ld => if s.threads.ld = .add ∧ s.mapped = false then some (.load a.junk) else none
  | .clock _ => none

/-- What a turn is to the threads: the loader's turn that stores the block is nothing to them. -/
def threadTurn (a : Turn cfg.numCpus κ) (s : State cfg τ) : Option (Simulator.Turn cfg.numCpus κ) :=
  match a.who with
  | .ld => if s.threads.ld = .add ∧ s.mapped = false then none else some .ld
  | who => some who

/-- A step of a machine that is asked for none leaves it as it is. -/
def optional {ι σ : Type*} (step : ι → σ → Option σ) : Option ι → σ → Option σ
  | none, s => some s
  | some a, s => step a s

/-- The loader has stored the block and has not called `add_proc`. -/
def mapped (a : Turn cfg.numCpus κ) (s : State cfg τ) : Bool :=
  match a.who with
  | .ld => (threadTurn a s).isNone
  | _ => s.mapped

/-- A step of the threads and the memory. An instruction is executed as a whole, a `READ` too, which
no other access overlaps. -/
def step (clk : Clock (Party cfg.numCpus) κ τ) (a : Turn cfg.numCpus κ) (s : State cfg τ) :
    Option (State cfg τ) := do
  let threads ← optional (Simulator.step clk) (threadTurn a s) s.threads
  let memory ← optional (Mem.turn (codes cfg)) (memoryTurn a s) s.memory
  some ⟨threads, memory, mapped a s⟩

/-- A turn; one that has no result leaves everything as it is. -/
def move (clk : Clock (Party cfg.numCpus) κ τ) : Turn cfg.numCpus κ → State cfg τ → State cfg τ :=
  stutter (step clk)

/-- The state after the turns of a schedule. -/
def after (clk : Clock (Party cfg.numCpus) κ τ) (t : τ) (heap : ℕ → Mem.Mm)
    (freeFpList : List Mem.Addr) (as : List (Turn cfg.numCpus κ)) : State cfg τ :=
  run (move clk) as (initial cfg t heap freeFpList)

/-! ### Each model goes its own way -/

variable {clk : Clock (Party cfg.numCpus) κ τ} {s s' : State cfg τ} {a : Turn cfg.numCpus κ}

theorem optional_of_some {ι σ : Type*} {step : ι → σ → Option σ} {a : Option ι} {s s' : σ}
    (h : optional step a s = some s') : s' = run (stutter step) a.toList s := by
  cases a with
  | none => exact (Option.some.inj h).symm
  | some a => exact (stutter_of_some h).symm

theorem step_spec (h : step clk a s = some s') :
    optional (Simulator.step clk) (threadTurn a s) s.threads = some s'.threads ∧
      optional (Mem.turn (codes cfg)) (memoryTurn a s) s.memory = some s'.memory ∧
        s'.mapped = mapped a s := by
  obtain ⟨threads, hthreads, h⟩ := Option.bind_eq_some_iff.mp h
  obtain ⟨memory, hmemory, h⟩ := Option.bind_eq_some_iff.mp h
  cases h
  exact ⟨hthreads, hmemory, rfl⟩

/-- The turns of the threads that a turn makes. -/
def threadTurns (clk : Clock (Party cfg.numCpus) κ τ) (a : Turn cfg.numCpus κ) (s : State cfg τ) :
    List (Simulator.Turn cfg.numCpus κ) :=
  if (step clk a s).isSome then (threadTurn a s).toList else []

/-- The turns of the memory that it makes. -/
def memoryTurns (clk : Clock (Party cfg.numCpus) κ τ) (a : Turn cfg.numCpus κ) (s : State cfg τ) :
    List Mem.Turn :=
  if (step clk a s).isSome then (memoryTurn a s).toList else []

theorem threads_move (clk : Clock (Party cfg.numCpus) κ τ) (a : Turn cfg.numCpus κ)
    (s : State cfg τ) :
    (move clk a s).threads = run (Simulator.move clk) (threadTurns clk a s) s.threads := by
  rw [threadTurns]
  cases hs : step clk a s with
  | none => rw [move, stutter_of_none hs]; rfl
  | some s' =>
    rw [move, stutter_of_some hs]
    exact optional_of_some (step_spec hs).1

theorem memory_move (clk : Clock (Party cfg.numCpus) κ τ) (a : Turn cfg.numCpus κ)
    (s : State cfg τ) :
    (move clk a s).memory = run (Mem.move (codes cfg)) (memoryTurns clk a s) s.memory := by
  rw [memoryTurns]
  cases hs : step clk a s with
  | none => rw [move, stutter_of_none hs]; rfl
  | some s' =>
    rw [move, stutter_of_some hs]
    exact optional_of_some (step_spec hs).2.1

/-- What the threads have done is a run of the simulator. -/
theorem threads_after (t : τ) (heap : ℕ → Mem.Mm) (freeFpList : List Mem.Addr)
    (as : List (Turn cfg.numCpus κ)) :
    (after clk t heap freeFpList as).threads = Simulator.after clk t
      (output (move clk) (threadTurns clk) as (initial cfg t heap freeFpList)) :=
  run_output (f := State.threads) (threads_move clk) as _

/-- What has been done to the memory is a run of the memory. -/
theorem memory_after (t : τ) (heap : ℕ → Mem.Mm) (freeFpList : List Mem.Addr)
    (as : List (Turn cfg.numCpus κ)) :
    (after clk t heap freeFpList as).memory = run (Mem.move (codes cfg))
      (output (move clk) (memoryTurns clk) as (initial cfg t heap freeFpList))
      (Mem.initial heap freeFpList) :=
  run_output (f := State.memory) (memory_move clk) as _

/-! ### Both know the same processes -/

/-- The memory knows of the threads' processes what they do. -/
structure Agree (s : State cfg τ) : Prop where
  /-- The threads keep their invariant. -/
  inv : Inv s.threads
  /-- The memory is ahead by the block stored. -/
  index : s.memory.i = s.threads.i + if s.mapped then 1 else 0
  /-- The block is stored before `add_proc`. -/
  atAdd : s.mapped = true → s.threads.ld = .add
  /-- A process is there from when it has its block until it is freed. -/
  pcbs : ∀ p : cfg.Proc, s.memory.pcbs p =
    if (p : ℕ) < s.memory.i ∧ p ∉ s.threads.freed then some ⟨cfg.text p, s.threads.pc p, .os⟩
    else none

theorem agree_initial (t : τ) (heap : ℕ → Mem.Mm) (freeFpList : List Mem.Addr) :
    Agree (initial cfg t heap freeFpList) where
  inv := inv_initial t
  index := rfl
  atAdd := nofun
  pcbs := fun _ => (if_neg fun h => absurd h.1 (Nat.not_lt_zero _)).symm

/-- A process that a CPU holds is there. -/
theorem Agree.pcbs_of_held (h : Agree s) {c : Fin cfg.numCpus} {p : cfg.Proc}
    (hp : held (s.threads.cpu c) = some p) :
    s.memory.pcbs p = some ⟨cfg.text p, s.threads.pc p, .os⟩ := by
  obtain ⟨hfreed, hloaded⟩ := h.inv.of_held hp
  have hindex := h.index
  rw [h.pcbs, if_pos ⟨by omega, hfreed⟩]

/-- A turn that moves neither the memory nor the loader, and neither runs nor frees. -/
theorem Agree.of_frame (h : Agree s) (hinv : Inv s'.threads) (hmemory : s'.memory = s.memory)
    (hmapped : s'.mapped = s.mapped) (hi : s'.threads.i = s.threads.i)
    (hadd : s.threads.ld = .add → s'.threads.ld = .add) (hpc : s'.threads.pc = s.threads.pc)
    (hfreed : s'.threads.freed = s.threads.freed) : Agree s' where
  inv := hinv
  index := by
    rw [hmemory, hi, hmapped]
    exact h.index
  atAdd := by
    rw [hmapped]
    exact fun hm => hadd (h.atAdd hm)
  pcbs := by
    intro p
    rw [hmemory, hpc, hfreed]
    exact h.pcbs p

theorem length_codes (cfg : Config Mem.Inst) : (codes cfg).length = cfg.numProcesses :=
  List.length_ofFn

/-- The loader stores a block for its process. -/
theorem turn_load {m m' : Mem.State} {junk : Mem.Mm}
    (h : Mem.turn (codes cfg) (.load junk) m = some m') :
    ∃ hi : m.i < cfg.numProcesses, m' = Mem.ldRoutine (cfg.text ⟨m.i, hi⟩) junk m := by
  obtain ⟨code, hcode, rfl⟩ := Option.map_eq_some_iff.mp h
  obtain ⟨hi, rfl⟩ := List.getElem?_eq_some_iff.mp hcode
  rw [length_codes] at hi
  refine ⟨hi, ?_⟩
  simp only [codes, List.getElem_ofFn]

/-- A process that is there executes its next instruction, if there is one. -/
theorem turn_run {m m' : Mem.State} {p pc : ℕ} {code : List Mem.Inst}
    (hp : m.pcbs p = some ⟨code, pc, .os⟩) (h : Mem.turn (codes cfg) (.run p) m = some m') :
    (code[pc]? = none ∧ m' = m) ∨
      ∃ ins block stat store, code[pc]? = some ins ∧ (m.krnl .os).mm = some block ∧
        Mem.execute ins ⟨m.heap block, m.freeFpList⟩ = some (stat, store) ∧
        m' = { m with
          heap := Function.update m.heap block store.mm
          freeFpList := store.freeFpList
          pcbs := Function.update m.pcbs p (some ⟨code, pc + 1, .os⟩) } := by
  obtain ⟨⟨stat, m''⟩, hrun, rfl⟩ := Option.map_eq_some_iff.mp h
  rw [Mem.runInst, hp, Option.bind_eq_bind, Option.bind_some] at hrun
  cases hins : code[pc]? with
  | none =>
    simp only [hins] at hrun
    cases hrun
    exact .inl ⟨rfl, rfl⟩
  | some ins =>
    simp only [hins] at hrun
    obtain ⟨block, hblock, hrun⟩ := Option.bind_eq_some_iff.mp hrun
    obtain ⟨⟨stat', store⟩, hexec, hrun⟩ := Option.bind_eq_some_iff.mp hrun
    cases hrun
    exact .inr ⟨ins, block, _, store, rfl, hblock, hexec, rfl⟩

/-- A process at its end goes. -/
theorem turn_finish {m m' : Mem.State} {p : ℕ} (h : Mem.turn (codes cfg) (.finish p) m = some m') :
    m' = { m with pcbs := Function.update m.pcbs p none } := by
  obtain ⟨proc, -, h⟩ := Option.bind_eq_some_iff.mp h
  split_ifs at h
  exact (Option.some.inj h).symm

theorem Agree.load (h : Agree s) {m : Mem.State} {junk : Mem.Mm} (hadd : s.threads.ld = .add)
    (hmapped : s.mapped = false) (hm : Mem.turn (codes cfg) (.load junk) s.memory = some m) :
    Agree ⟨s.threads, m, true⟩ := by
  obtain ⟨hi, rfl⟩ := turn_load hm
  have hindex : s.memory.i = s.threads.i := by
    have hindex := h.index
    rwa [hmapped] at hindex
  refine ⟨h.inv, congrArg (· + 1) hindex, fun _ => hadd, ?_⟩
  intro p
  show Function.update s.memory.pcbs s.memory.i (some ⟨cfg.text ⟨s.memory.i, hi⟩, 0, .os⟩) p =
    if (p : ℕ) < s.memory.i + 1 ∧ p ∉ s.threads.freed then
      some ⟨cfg.text p, s.threads.pc p, .os⟩ else none
  by_cases hp : (p : ℕ) = s.memory.i
  · -- the process has neither run nor been freed
    obtain rfl : p = ⟨s.memory.i, hi⟩ := Fin.ext hp
    have hpc := h.inv.pc_eq_zero ⟨s.memory.i, hi⟩ hindex.ge
    have hfreed : (⟨s.memory.i, hi⟩ : cfg.Proc) ∉ s.threads.freed := by
      have hone := h.inv.copies_eq ⟨s.memory.i, hi⟩
      have hpending : pending s.threads ⟨s.memory.i, hi⟩ = 1 := if_pos hindex.ge
      rw [copies, hpending] at hone
      exact List.count_eq_zero.mp (by omega)
    rw [Function.update_self, if_pos ⟨Nat.lt_succ_self _, hfreed⟩, hpc]
  · rw [Function.update_of_ne hp, h.pcbs]
    have hlt : (p : ℕ) < s.memory.i + 1 ↔ (p : ℕ) < s.memory.i := by omega
    simp only [hlt]

theorem Agree.ldTurn (h : Agree s) {threads : Simulator.State cfg τ}
    (hs : LdTurn clk s.threads threads) (hmapped : s.threads.ld = .add → s.mapped = true) :
    Agree ⟨threads, s.memory, false⟩ := by
  have hinv := hs.inv h.inv
  have hnot : s.threads.ld ≠ .add → s.mapped = false := by
    intro hld
    by_contra hm
    exact hld (h.atAdd (Bool.eq_true_of_not_eq_false hm))
  have hframe : threads.i = s.threads.i → s.threads.ld ≠ .add → threads.pc = s.threads.pc →
      threads.freed = s.threads.freed → Agree ⟨threads, s.memory, false⟩ := fun hi hld hpc hfreed =>
    h.of_frame hinv rfl (hnot hld).symm hi (fun hadd => absurd hadd hld) hpc hfreed
  cases hs with
  | load hi hloc =>
    refine hframe rfl (by rw [hloc]; exact nofun) ?_ rfl
    show Function.update s.threads.pc ⟨s.threads.i, hi⟩ 0 = s.threads.pc
    rw [← h.inv.pc_eq_zero ⟨s.threads.i, hi⟩ le_rfl, Function.update_eq_self]
  | store hi hloc => exact hframe rfl (by rw [hloc]; exact nofun) rfl rfl
  | look hi hloc => exact hframe rfl (by rw [hloc]; exact nofun) rfl rfl
  | add hi hloc =>
    have hindex := h.index
    rw [hmapped hloc] at hindex
    exact ⟨hinv, hindex, nofun, h.pcbs⟩
  | quiet k l hq =>
    refine hframe rfl ?_ rfl rfl
    intro hadd
    rw [hadd] at hq
    cases hq

theorem Agree.run (h : Agree s) {m : Mem.State} {c : Fin cfg.numCpus} {p : cfg.Proc} {t : ℤ}
    (hx : s.threads.cpu c = ⟨.run, some p, t⟩)
    (hm : Mem.turn (codes cfg) (.run p) s.memory = some m) :
    Agree ⟨setCpu (Simulator.run clk c p s.threads) c ⟨.top, some p, t - 1⟩, m, s.mapped⟩ := by
  have hheld : held (s.threads.cpu c) = some p := by
    rw [hx]
    rfl
  have hturn : CpuTurn clk c s.threads _ := .run p t hx
  have hinv := hturn.inv h.inv
  rcases turn_run (h.pcbs_of_held hheld) hm with ⟨hnone, rfl⟩ | ⟨ins, block, stat, store, hins, -, -, rfl⟩
  · have hpc : s.threads.pc p ≥ cfg.size p := List.getElem?_eq_none_iff.mp hnone
    simp only [Simulator.run, dif_pos hpc] at hinv ⊢
    exact h.of_frame hinv rfl rfl rfl id rfl rfl
  · obtain ⟨hlt, -⟩ := List.getElem?_eq_some_iff.mp hins
    have hlt : ¬ s.threads.pc p ≥ cfg.size p := not_le.mpr hlt
    simp only [Simulator.run, dif_neg hlt] at hinv ⊢
    refine ⟨hinv, h.index, h.atAdd, ?_⟩
    intro q
    show Function.update s.memory.pcbs p (some ⟨cfg.text p, s.threads.pc p + 1, .os⟩) q =
      if (q : ℕ) < s.memory.i ∧ q ∉ s.threads.freed then
        some ⟨cfg.text q, Function.update s.threads.pc p (s.threads.pc p + 1) q, .os⟩ else none
    by_cases hq : q = p
    · subst hq
      have hthere := h.pcbs_of_held hheld
      rw [h.pcbs] at hthere
      split_ifs at hthere with hif
      rw [Function.update_self, Function.update_self, if_pos hif]
    · rw [Function.update_of_ne fun hqp => hq (Fin.ext hqp), Function.update_of_ne hq, h.pcbs]

theorem Agree.finish (h : Agree s) {m : Mem.State} {c : Fin cfg.numCpus} {p : cfg.Proc} {t : ℤ}
    (hinv : Inv { setCpu s.threads c ⟨.reaped, some p, t⟩ with freed := p :: s.threads.freed })
    (hm : Mem.turn (codes cfg) (.finish p) s.memory = some m) :
    Agree ⟨{ setCpu s.threads c ⟨.reaped, some p, t⟩ with freed := p :: s.threads.freed }, m,
      s.mapped⟩ := by
  obtain rfl := turn_finish hm
  refine ⟨hinv, h.index, h.atAdd, ?_⟩
  intro q
  show Function.update s.memory.pcbs p none q =
    if (q : ℕ) < s.memory.i ∧ q ∉ p :: s.threads.freed then
      some ⟨cfg.text q, s.threads.pc q, .os⟩ else none
  by_cases hq : q = p
  · subst hq
    rw [Function.update_self, if_neg fun hif => hif.2 List.mem_cons_self]
  · rw [Function.update_of_ne fun hqp => hq (Fin.ext hqp), h.pcbs]
    simp only [List.mem_cons, hq, false_or]

theorem Agree.step (h : Agree s) (hs : System.step clk a s = some s') : Agree s' := by
  obtain ⟨hthreads, hmemory, hmapped⟩ := step_spec hs
  obtain ⟨threads, memory, mapped'⟩ := s'
  obtain ⟨who, junk⟩ := a
  cases who with
  | clock k =>
    obtain ⟨t, -, rfl⟩ := Option.map_eq_some_iff.mp hthreads
    obtain rfl := Option.some.inj hmemory
    obtain rfl := hmapped
    exact h.of_frame ⟨h.inv.copies_eq, h.inv.executed_eq, h.inv.pc_le, h.inv.finished,
      h.inv.pc_eq_zero⟩ rfl rfl rfl id rfl rfl
  | ld =>
    by_cases hstore : s.threads.ld = .add ∧ s.mapped = false
    · simp only [threadTurn, memoryTurn, mapped, if_pos hstore] at hthreads hmemory hmapped
      obtain rfl := Option.some.inj hthreads
      subst hmapped
      exact h.load hstore.1 hstore.2 hmemory
    · simp only [threadTurn, memoryTurn, mapped, if_neg hstore] at hthreads hmemory hmapped
      obtain rfl := Option.some.inj hmemory
      subst hmapped
      refine h.ldTurn (ldTurn_of_ldRoutine hthreads) ?_
      intro hadd
      by_contra hm
      exact hstore ⟨hadd, Bool.eq_false_of_not_eq_true hm⟩
  | cpu c =>
    subst hmapped
    have hturn : CpuTurn clk c s.threads threads := cpuTurn_of_cpuRoutine hthreads
    have hinv := hturn.inv h.inv
    have hframe : cpuMemory c s.threads = none → threads.i = s.threads.i →
        threads.ld = s.threads.ld → threads.pc = s.threads.pc →
        threads.freed = s.threads.freed → Agree ⟨threads, memory, s.mapped⟩ := by
      intro hnone hi hld hpc hfreed
      simp only [memoryTurn, hnone] at hmemory
      obtain rfl := Option.some.inj hmemory
      exact h.of_frame hinv rfl rfl hi (fun hadd => hld.trans hadd) hpc hfreed
    cases hturn with
    | load t hx => exact hframe (by rw [cpuMemory, hx]) rfl rfl rfl rfl
    | replace q t hx => exact hframe (by rw [cpuMemory, hx]) rfl rfl rfl rfl
    | rotate q t hx => exact hframe (by rw [cpuMemory, hx]) rfl rfl rfl rfl
    | free q t hx hpc =>
      simp only [memoryTurn, cpuMemory, hx, if_pos hpc] at hmemory
      exact h.finish hinv hmemory
    | put q t hx hpc ht => exact hframe (by simp only [cpuMemory, hx, if_neg hpc]) rfl rfl rfl rfl
    | keep q t hx hpc ht => exact hframe (by simp only [cpuMemory, hx, if_neg hpc]) rfl rfl rfl rfl
    | run q t hx =>
      simp only [memoryTurn, cpuMemory, hx] at hmemory
      exact h.run hx hmemory
    | quiet k x hq =>
      refine hframe ?_ rfl rfl rfl rfl
      rw [cpuMemory]
      generalize s.threads.cpu c = y at hq
      cases hq <;> rfl

theorem agree_after (t : τ) (heap : ℕ → Mem.Mm) (freeFpList : List Mem.Addr)
    (as : List (Turn cfg.numCpus κ)) : Agree (after clk t heap freeFpList as) :=
  stutter_invariant (fun _ _ _ h hs => h.step hs) as (agree_initial t heap freeFpList)

/-- **The simulator and its memory.** In any run of both together, the threads have gone through a
run of the simulator, and the memory through a run of the memory; and a process is there in the
memory from when the loader has stored its block until a CPU frees it, with the text and the
`pc` that the CPUs know. -/
theorem refines (cfg : Config Mem.Inst) (clk : Clock (Party cfg.numCpus) κ τ) (t : τ)
    (heap : ℕ → Mem.Mm) (freeFpList : List Mem.Addr) (as : List (Turn cfg.numCpus κ)) :
    (∃ bs, (after clk t heap freeFpList as).threads = Simulator.after clk t bs) ∧
      (∃ ts, (after clk t heap freeFpList as).memory =
        Machine.run (Mem.move (codes cfg)) ts (Mem.initial heap freeFpList)) ∧
      ((after clk t heap freeFpList as).memory.i = (after clk t heap freeFpList as).threads.i ∨
        (after clk t heap freeFpList as).threads.ld = .add ∧
          (after clk t heap freeFpList as).memory.i =
            (after clk t heap freeFpList as).threads.i + 1) ∧
      ∀ p : cfg.Proc, (after clk t heap freeFpList as).memory.pcbs p =
        if (p : ℕ) < (after clk t heap freeFpList as).memory.i ∧
            p ∉ (after clk t heap freeFpList as).threads.freed then
          some ⟨cfg.text p, (after clk t heap freeFpList as).threads.pc p, .os⟩
        else none := by
  have h := @agree_after _ _ _ clk t heap freeFpList as
  refine ⟨⟨_, threads_after t heap freeFpList as⟩, ⟨_, memory_after t heap freeFpList as⟩, ?_, h.pcbs⟩
  have hindex := h.index
  split_ifs at hindex with hmapped
  · exact .inr ⟨h.atAdd hmapped, hindex⟩
  · exact .inl hindex

end Ossim.System
