import Mathlib.Order.Lattice
import Ossim.Machine.Run
import Ossim.Mem.Instruction

/-!
# Isolation

A process reaches its memory through its kernel: `proc->krnl->mm`. The loader gives
every process the same kernel, `os`, and for every process it stores a new `mm_struct`
in it. So a process has the memory it was loaded with only until the next process is
loaded; from then on all of them share the newest one.

What one process does leaves the memory of the others alone in exactly the runs in
which no process is loaded while another one is there, where there are never two.

## The model

One turn is an iteration of the loader's loop, the execution of one instruction by
`run`, or the `free(proc)` of a CPU whose process is at the end of its code. Turns come
in any order. Memory for an `mm_struct` is a block that `malloc` has not given out
before, with whatever is in it (`junk`); blocks are numbered in the order they are
given out, and none is given back. A process is its index in the configuration.

A turn that has no result is not taken: the process is not there, or an instruction
follows a pointer it may not follow.

What is *not* modelled: the scheduler and the CPUs, which only restrict the order of
the turns; start times, for the same reason; the caches and the kernel page directories.
-/

namespace Ossim.Mem

/-- The `krnl_t` structures of the program. -/
inductive KrnlId where
  /-- `os`. -/
  | os
  deriving DecidableEq

/-- `struct krnl_t`. -/
structure Krnl where
  /-- `mm`: the number of a block, or `none` before anything is stored. -/
  mm : Option ℕ

/-- `struct pcb_t`. -/
structure Pcb where
  /-- `code`. -/
  code : List Inst
  /-- `pc`. -/
  pc : ℕ
  /-- `krnl`. -/
  krnl : KrnlId

/-- What the loader and the processes work on. -/
structure State where
  /-- The kernels. -/
  krnl : KrnlId → Krnl
  /-- The blocks. -/
  heap : ℕ → Mm
  /-- The next block to give out. -/
  fresh : ℕ
  /-- The free frames of the active swap device. -/
  freeFpList : List Addr
  /-- The processes that are there. -/
  pcbs : ℕ → Option Pcb
  /-- `i` of the loader's loop. -/
  i : ℕ

/-- A turn. -/
inductive Turn where
  /-- An iteration of the loader's loop, with what is in the block it gets. -/
  | load (junk : Mm)
  /-- An instruction of a process. -/
  | run (proc : ℕ)
  /-- A process at the end of its code is freed. -/
  | finish (proc : ℕ)

/-! ### Turns -/

/-- `init_mm`: it fills in an area, and stores no pointer to it. -/
def initMm (mm : Mm) : ℤ × Mm := (0, mm)

/-- One iteration of the loop of `ld_routine`, for a process with this code. -/
def ldRoutine (code : List Inst) (junk : Mm) (s : State) : State :=
  { s with
    krnl := Function.update s.krnl .os ⟨some s.fresh⟩
    heap := Function.update s.heap s.fresh (initMm junk).2
    fresh := s.fresh + 1
    pcbs := Function.update s.pcbs s.i (some ⟨code, 0, .os⟩)
    i := s.i + 1 }

/-- `run`, for process `p`. -/
def runInst (p : ℕ) (s : State) : Option (ℤ × State) := do
  let proc ← s.pcbs p
  match proc.code[proc.pc]? with
  | none => some (1, s)
  | some ins =>
    let mm ← (s.krnl proc.krnl).mm
    let (stat, store) ← execute ins ⟨s.heap mm, s.freeFpList⟩
    some (stat, { s with
      heap := Function.update s.heap mm store.mm
      freeFpList := store.freeFpList
      pcbs := Function.update s.pcbs p (some { proc with pc := proc.pc + 1 }) })

/-- `free(proc)`, for process `p` at the end of its code. -/
def freeProc (p : ℕ) (s : State) : Option State := do
  let proc ← s.pcbs p
  if proc.pc = proc.code.length then some { s with pcbs := Function.update s.pcbs p none } else none

/-- A turn, where the processes to be loaded have the codes `ldProcesses`. -/
def turn (ldProcesses : List (List Inst)) : Turn → State → Option State
  | .load junk, s => (ldProcesses[s.i]?).map fun code => ldRoutine code junk s
  | .run p, s => (runInst p s).map fun r => r.2
  | .finish p, s => freeProc p s

/-- Before the first process is loaded. -/
def initial (heap : ℕ → Mm) (freeFpList : List Addr) : State where
  krnl := fun _ => ⟨none⟩
  heap := heap
  fresh := 0
  freeFpList := freeFpList
  pcbs := fun _ => none
  i := 0

/-! ### What a process sees -/

/-- What a process sees of its memory. -/
structure View where
  /-- The `mm_struct` it refers to. -/
  mm : Option ℕ
  /-- The symbol table there. -/
  symrgtbl : Option (Fin maxSymtblSz → VmRg)
  /-- The areas there, with their free lists. -/
  mmap : Option (Option (List VmArea))

/-- What is seen through a kernel. -/
def seen (s : State) (k : KrnlId) : View where
  mm := (s.krnl k).mm
  symrgtbl := (s.krnl k).mm.map fun mm => (s.heap mm).symrgtbl
  mmap := (s.krnl k).mm.map fun mm => (s.heap mm).mmap

/-- What process `p` sees through `krnl->mm`, if it is there. -/
def view (s : State) (p : ℕ) : Option View := (s.pcbs p).map fun proc => seen s proc.krnl

/-- The process a turn belongs to. -/
def owner (s : State) : Turn → ℕ
  | .load _ => s.i
  | .run p => p
  | .finish p => p

variable (ldProcesses : List (List Inst))

/-- The state after a turn, or the same state if the turn is not taken. -/
abbrev move : Turn → State → State := Machine.stutter (turn ldProcesses)

/-- The turn changes nothing that a process it does not belong to sees. -/
def Isolated (s : State) (t : Turn) : Prop :=
  ∀ p, p ≠ owner s t → view (move ldProcesses t s) p = view s p

/-- If the turn loads a process, no process is there. -/
def Alone (s : State) (t : Turn) : Prop :=
  ∀ junk, t = .load junk → s.i < ldProcesses.length → ∀ p, s.pcbs p = none

variable {ldProcesses} {s s' : State}

/-! ### One turn -/

theorem pcbs_ldRoutine_of_ne (code : List Inst) (junk : Mm) {p : ℕ} (hp : p ≠ s.i) :
    (ldRoutine code junk s).pcbs p = s.pcbs p := Function.update_of_ne hp _ _

/-- The new block is stored in every kernel. -/
theorem krnl_ldRoutine (code : List Inst) (junk : Mm) (k : KrnlId) :
    (ldRoutine code junk s).krnl k = ⟨some s.fresh⟩ := by
  cases k
  simp [ldRoutine]

/-- What an instruction can change outside the memory of its process. -/
theorem runInst_cases {p : ℕ} {stat : ℤ} (h : runInst p s = some (stat, s')) :
    s' = s ∨ ∃ proc proc' heap freeFpList, s.pcbs p = some proc ∧
      s' = { s with
        heap := heap
        freeFpList := freeFpList
        pcbs := Function.update s.pcbs p (some proc') } := by
  obtain ⟨proc, hproc, h⟩ := Option.bind_eq_some_iff.mp h
  cases hins : proc.code[proc.pc]? with
  | none =>
    rw [hins] at h
    cases h
    exact .inl rfl
  | some ins =>
    rw [hins] at h
    obtain ⟨mm, -, h⟩ := Option.bind_eq_some_iff.mp h
    obtain ⟨⟨stat', store⟩, -, h⟩ := Option.bind_eq_some_iff.mp h
    cases h
    exact .inr ⟨proc, _, _, _, hproc, rfl⟩

/-- What a turn can do to the kernels and to the processes that are there: load one, nothing,
or change the one it belongs to. -/
theorem move_cases (ldProcesses : List (List Inst)) (t : Turn) (s : State) :
    (∃ junk code, t = .load junk ∧ s.i < ldProcesses.length ∧
      move ldProcesses t s = ldRoutine code junk s) ∨
      move ldProcesses t s = s ∨
      ∃ proc proc' heap freeFpList, s.pcbs (owner s t) = some proc ∧
        move ldProcesses t s = { s with
          heap := heap
          freeFpList := freeFpList
          pcbs := Function.update s.pcbs (owner s t) proc' } := by
  rcases Machine.stutter_cases (turn ldProcesses) t s with h | h
  · cases t with
    | load junk =>
      obtain ⟨code, hcode, hs'⟩ := Option.map_eq_some_iff.mp h
      obtain ⟨hlt, -⟩ := List.getElem?_eq_some_iff.mp hcode
      exact .inl ⟨junk, code, rfl, hlt, hs'.symm⟩
    | run p =>
      obtain ⟨⟨stat, s'⟩, hrun, hs'⟩ := Option.map_eq_some_iff.mp h
      rcases runInst_cases hrun with rfl | ⟨proc, proc', heap, freeFpList, hproc, rfl⟩
      · exact .inr (.inl hs'.symm)
      · exact .inr (.inr ⟨proc, some proc', heap, freeFpList, hproc, hs'.symm⟩)
    | finish p =>
      obtain ⟨proc, hproc, h⟩ := Option.bind_eq_some_iff.mp h
      split_ifs at h
      exact .inr (.inr ⟨proc, none, s.heap, s.freeFpList, hproc, (Option.some.inj h).symm⟩)
  · exact .inr (.inl h)

/-- A process that is there after a turn of another kind than loading was there before. -/
theorem isSome_of_update {p q : ℕ} {proc : Pcb} {proc' : Option Pcb} (hproc : s.pcbs p = some proc)
    (h : (Function.update s.pcbs p proc' q).isSome) : (s.pcbs q).isSome := by
  by_cases hq : q = p
  · rw [hq, hproc]; rfl
  · rwa [Function.update_of_ne hq] at h

theorem view_eq_none {p : ℕ} (h : s.pcbs p = none) : view s p = none := by rw [view, h]; rfl

/-! ### All runs -/

/-- What holds in every state reached. -/
structure Loaded (s : State) : Prop where
  /-- The processes that are there come before the one to be loaded. -/
  index : ∀ p, (s.pcbs p).isSome → p < s.i
  /-- If there is one, a block has been given out and stored in the kernel. -/
  block : ∀ p, (s.pcbs p).isSome → ∀ k, ∃ mm, (s.krnl k).mm = some mm ∧ mm < s.fresh

theorem loaded_initial (heap : ℕ → Mm) (freeFpList : List Addr) :
    Loaded (initial heap freeFpList) where
  index := by intro p hp; cases hp
  block := by intro p hp; cases hp

theorem loaded_ldRoutine (h : Loaded s) (code : List Inst) (junk : Mm) :
    Loaded (ldRoutine code junk s) where
  index := by
    intro p hp
    by_cases hpi : p = s.i
    · rw [hpi]; exact Nat.lt_succ_self _
    · refine lt_trans (h.index p ?_) (Nat.lt_succ_self _)
      rwa [pcbs_ldRoutine_of_ne code junk hpi] at hp
  block := by
    intro p _ k
    exact ⟨s.fresh, by rw [krnl_ldRoutine], Nat.lt_succ_self _⟩

theorem loaded_move (h : Loaded s) (t : Turn) : Loaded (move ldProcesses t s) := by
  rcases move_cases ldProcesses t s with
    ⟨junk, code, -, -, hs'⟩ | hs' | ⟨proc, proc', heap, freeFpList, hproc, hs'⟩
  · rw [hs']; exact loaded_ldRoutine h code junk
  · rw [hs']; exact h
  · rw [hs']
    refine ⟨?_, ?_⟩
    · intro q hq
      exact h.index q (isSome_of_update hproc hq)
    · intro q hq k
      exact h.block q (isSome_of_update hproc hq) k

/-- Loading a process takes the memory of the others away. -/
theorem Loaded.alone (h : Loaded s) {t : Turn} (ht : Isolated ldProcesses s t) :
    Alone ldProcesses s t := by
  rintro junk rfl hlt p
  by_contra hp
  obtain ⟨proc, hproc⟩ := Option.ne_none_iff_exists'.mp hp
  have hsome : (s.pcbs p).isSome := Option.isSome_of_eq_some hproc
  have hpi : p ≠ s.i := (h.index p hsome).ne
  have hload : move ldProcesses (.load junk) s = ldRoutine ldProcesses[s.i] junk s := by
    apply Machine.stutter_of_some
    rw [turn, List.getElem?_eq_getElem hlt]
    rfl
  have hview := ht p hpi
  rw [hload, view, view, pcbs_ldRoutine_of_ne _ _ hpi, hproc] at hview
  obtain ⟨mm, hmm, hfresh⟩ := h.block p hsome proc.krnl
  have hseen : ((ldRoutine ldProcesses[s.i] junk s).krnl proc.krnl).mm = (s.krnl proc.krnl).mm :=
    congrArg View.mm (Option.some.inj hview)
  rw [krnl_ldRoutine, hmm] at hseen
  exact hfresh.ne' (Option.some.inj hseen)

/-! ### Runs with one process at a time -/

/-- At most one process is there. -/
def Single (s : State) : Prop := ∀ p q, (s.pcbs p).isSome → (s.pcbs q).isSome → p = q

theorem single_initial (heap : ℕ → Mm) (freeFpList : List Addr) :
    Single (initial heap freeFpList) := by
  intro p q hp
  cases hp

theorem single_move (h : Single s) {t : Turn} (ht : Alone ldProcesses s t) :
    Single (move ldProcesses t s) := by
  rcases move_cases ldProcesses t s with
    ⟨junk, code, hload, hlt, hs'⟩ | hs' | ⟨proc, proc', heap, freeFpList, hproc, hs'⟩
  · have hone : ∀ p, ((ldRoutine code junk s).pcbs p).isSome → p = s.i := by
      intro p hp
      by_contra hpi
      rw [pcbs_ldRoutine_of_ne code junk hpi, ht junk hload hlt p] at hp
      cases hp
    rw [hs']
    intro p q hp hq
    rw [hone p hp, hone q hq]
  · rw [hs']; exact h
  · rw [hs']
    intro q r hq hr
    exact h q r (isSome_of_update hproc hq) (isSome_of_update hproc hr)

/-- With one process at a time there is no other to be disturbed. -/
theorem Single.isolated (h : Single s) {t : Turn} (ht : Alone ldProcesses s t) :
    Isolated ldProcesses s t := by
  intro q hq
  rcases move_cases ldProcesses t s with
    ⟨junk, code, rfl, hlt, hs'⟩ | hs' | ⟨proc, proc', heap, freeFpList, hproc, hs'⟩
  · have hnone : s.pcbs q = none := ht junk rfl hlt q
    rw [hs', view_eq_none hnone]
    exact view_eq_none ((pcbs_ldRoutine_of_ne code junk hq).trans hnone)
  · rw [hs']
  · have hnone : s.pcbs q = none := by
      by_contra hsome
      exact hq (h q _ (Option.isSome_iff_ne_none.mpr hsome) (Option.isSome_of_eq_some hproc))
    rw [hs', view_eq_none hnone]
    exact view_eq_none ((Function.update_of_ne hq _ _).trans hnone)

/-! ### Isolation -/

/-- Processes are isolated from one another in exactly the runs in which a process is loaded
only when no other one is there. -/
theorem isolated_iff_alone (ldProcesses : List (List Inst)) (heap : ℕ → Mm) (freeFpList : List Addr)
    (ts : List Turn) :
    Machine.Along (move ldProcesses) (Isolated ldProcesses) ts (initial heap freeFpList) ↔
      Machine.Along (move ldProcesses) (Alone ldProcesses) ts (initial heap freeFpList) := by
  constructor
  · intro h
    exact h.mono_of (I := Loaded) (fun t s hs _ => loaded_move hs t) (fun t s hs ht => hs.alone ht)
      (loaded_initial heap freeFpList)
  · intro h
    exact h.mono_of (I := Single) (fun t s hs ht => single_move hs ht)
      (fun t s hs ht => hs.isolated ht) (single_initial heap freeFpList)

/-- Two processes, each of which is one `CALC`. -/
def twoCalcs : List (List Inst) := [[⟨.calc, 0, 0, 0, 0⟩], [⟨.calc, 0, 0, 0, 0⟩]]

/-- A block with nothing in it. -/
def blank : Mm := ⟨none, fun _ => ⟨0, 0⟩, none⟩

/-- No block given out, no frame free. -/
def blankState : State := initial (fun _ => blank) []

/-- When a second process is loaded, the first one refers to another `mm_struct`. -/
theorem second_load_takes_memory :
    (view (Machine.run (move twoCalcs) [.load blank] blankState) 0).map View.mm = some (some 0) ∧
      (view (Machine.run (move twoCalcs) [.load blank, .load blank] blankState) 0).map View.mm =
        some (some 1) ∧
      ¬ Machine.Along (move twoCalcs) (Isolated twoCalcs) [.load blank, .load blank] blankState := by
  refine ⟨rfl, rfl, ?_⟩
  intro h
  obtain ⟨-, hsecond, -⟩ := h
  have hmm := congrArg (Option.map View.mm) (hsecond 0 (by decide))
  exact absurd hmm (by decide)

end Ossim.Mem
