import Ossim.System.Routines

/-!
# What the memory holds

Until the loader stores the next block, the memory that all processes reach is what one gets by
executing, one after another, the instructions that the CPUs have logged (`memory_is_replay`), where
no `READ` overlaps another access: each instruction is one turn here, which is what it comes to in
these runs (`reads_atomic`).

If the loader stores a block only when the processes before have been freed, and in no other
run, no turn disturbs what another process sees (`isolated_iff`), and a process has in memory
what executing its text alone on a new block gives (`executes_alone`).
-/

namespace Ossim.System

open Machine Simulator

variable {κ τ : Type} {cfg : Config Mem.Inst} {clk : Clock (Party cfg.numCpus) κ τ}
variable {s s' : State cfg τ} {a : Turn cfg.numCpus κ}

/-- The instructions of a list, executed one after another. -/
def replay (is : List Mem.Inst) (store : Mem.Store) : Option Mem.Store :=
  is.foldlM (fun store ins => (Mem.execute ins store).map Prod.snd) store

/-- What the processes reach: the block stored last, and the free frames. -/
def reached (m : Mem.State) : Option Mem.Store :=
  (m.krnl .os).mm.map fun block => ⟨m.heap block, m.freeFpList⟩

theorem replay_append (is js : List Mem.Inst) (store : Mem.Store) :
    replay (is ++ js) store = (replay is store).bind (replay js) := by
  rw [replay, List.foldlM_append]
  rfl

/-! ### One turn -/

/-- What a turn may be to the memory. -/
inductive Effect (a : Turn cfg.numCpus κ) (s s' : State cfg τ) : Prop where
  /-- The loader stores a new block. -/
  | load (junk : Mem.Mm) (hturn : memoryTurn a s = some (.load junk))
      (hi : s.memory.i < cfg.numProcesses)
      (hmemory : s'.memory = Mem.ldRoutine (cfg.text ⟨s.memory.i, hi⟩) junk s.memory)
  /-- A CPU executes an instruction of its process, which goes into the log. -/
  | exec (e : Executed cfg) (store store' : Mem.Store) (stat : ℤ)
      (hthere : (s.memory.pcbs e.proc).isSome) (hlog : s'.threads.log = s.threads.log ++ [e])
      (hreached : reached s.memory = some store)
      (hexec : Mem.execute e.ins store = some (stat, store'))
      (hreached' : reached s'.memory = some store') (hfresh : s'.memory.fresh = s.memory.fresh)
      (hi : s'.memory.i = s.memory.i)
  /-- Nothing changes there. -/
  | none (hlog : s'.threads.log = s.threads.log) (hreached : reached s'.memory = reached s.memory)
      (hfresh : s'.memory.fresh = s.memory.fresh) (hi : s'.memory.i = s.memory.i)

theorem Agree.effect (h : Agree s) (hs : System.step clk a s = some s') : Effect a s s' := by
  obtain ⟨hthreads, hmemory, -⟩ := step_spec hs
  obtain ⟨threads, memory, mapped'⟩ := s'
  obtain ⟨who, junk⟩ := a
  have hnone : memory = s.memory → threads.log = s.threads.log →
      Effect ⟨who, junk⟩ s ⟨threads, memory, mapped'⟩ := fun hm hlog =>
    .none hlog (congrArg reached hm) (congrArg Mem.State.fresh hm) (congrArg Mem.State.i hm)
  cases who with
  | clock k =>
    obtain ⟨t, -, rfl⟩ := Option.map_eq_some_iff.mp hthreads
    exact hnone (Option.some.inj hmemory).symm rfl
  | ld =>
    by_cases hstore : s.threads.ld = .add ∧ s.mapped = false
    · simp only [threadTurn, memoryTurn, if_pos hstore] at hthreads hmemory
      obtain rfl := Option.some.inj hthreads
      obtain ⟨hi, hm⟩ := turn_load hmemory
      exact .load junk (if_pos hstore) hi hm
    · simp only [threadTurn, memoryTurn, if_neg hstore] at hthreads hmemory
      refine hnone (Option.some.inj hmemory).symm ?_
      cases ldTurn_of_ldRoutine hthreads <;> rfl
  | cpu c =>
    have hturn : CpuTurn clk c s.threads threads := cpuTurn_of_cpuRoutine hthreads
    have hquiet : cpuMemory c s.threads = Option.none → threads.log = s.threads.log →
        Effect (⟨.cpu c, junk⟩ : Turn cfg.numCpus κ) s ⟨threads, memory, mapped'⟩ := by
      intro hcpu hlog
      simp only [memoryTurn, hcpu] at hmemory
      exact hnone (Option.some.inj hmemory).symm hlog
    cases hturn with
    | load t hx => exact hquiet (by rw [cpuMemory, hx]) rfl
    | replace q t hx => exact hquiet (by rw [cpuMemory, hx]) rfl
    | rotate q t hx => exact hquiet (by rw [cpuMemory, hx]) rfl
    | free q t hx hpc =>
      simp only [memoryTurn, cpuMemory, hx, if_pos hpc] at hmemory
      change Mem.turn (codes cfg) (.finish q) s.memory = some memory at hmemory
      obtain rfl := turn_finish hmemory
      exact .none rfl rfl rfl rfl
    | put q t hx hpc ht => exact hquiet (by simp only [cpuMemory, hx, if_neg hpc]) rfl
    | keep q t hx hpc ht => exact hquiet (by simp only [cpuMemory, hx, if_neg hpc]) rfl
    | run q t hx =>
      simp only [memoryTurn, cpuMemory, hx] at hmemory
      change Mem.turn (codes cfg) (.run q) s.memory = some memory at hmemory
      have hthere := h.pcbs_of_held (c := c) (p := q) (by rw [hx]; rfl)
      rcases turn_run hthere hmemory with
        ⟨hend, rfl⟩ | ⟨ins, block, stat, store, hins, hblock, hexec, rfl⟩
      · have hpc : s.threads.pc q ≥ cfg.size q := List.getElem?_eq_none_iff.mp hend
        refine hnone rfl ?_
        simp only [setCpu, Simulator.run, dif_pos hpc]
      · obtain ⟨hlt, hget⟩ := List.getElem?_eq_some_iff.mp hins
        have hpc : ¬ s.threads.pc q ≥ cfg.size q := not_le.mpr hlt
        refine .exec ⟨c, q, ins, clk.currentTime s.threads.clock⟩ ⟨s.memory.heap block, _⟩ store stat
          (Option.isSome_of_eq_some hthere) ?_ ?_ hexec ?_ rfl rfl
        · simp only [setCpu, Simulator.run, dif_neg hpc, List.get_eq_getElem, hget]
        · rw [reached, hblock]
          rfl
        · simp only [reached, hblock, Option.map_some, Function.update_self]
    | quiet k x hq =>
      refine hquiet ?_ rfl
      rw [cpuMemory]
      generalize s.threads.cpu c = y at hq
      cases hq <;> rfl

/-! ### Between two loads -/

/-- No block is given back. -/
theorem Agree.fresh_le (h : Agree s) (clk : Clock (Party cfg.numCpus) κ τ)
    (a : Turn cfg.numCpus κ) : s.memory.fresh ≤ (move clk a s).memory.fresh := by
  rcases stutter_cases (System.step clk) a s with hs | hs
  · rw [move]
    cases h.effect hs with
    | load junk _ _ hm =>
      rw [hm]
      exact Nat.le_succ _
    | exec _ _ _ _ _ _ _ _ _ hfresh _ => exact hfresh.ge
    | none _ _ hfresh _ => exact hfresh.ge
  · rw [move, hs]

theorem Agree.move (h : Agree s) (clk : Clock (Party cfg.numCpus) κ τ) (a : Turn cfg.numCpus κ) :
    Agree (move clk a s) := by
  rcases stutter_cases (System.step clk) a s with hs | hs
  · exact h.step hs
  · rw [System.move, hs]
    exact h

theorem Agree.fresh_le_run (h : Agree s) (clk : Clock (Party cfg.numCpus) κ τ)
    (as : List (Turn cfg.numCpus κ)) :
    s.memory.fresh ≤ (Machine.run (System.move clk) as s).memory.fresh := by
  induction as generalizing s with
  | nil => exact le_rfl
  | cons a as ih => exact (h.fresh_le clk a).trans (ih (h.move clk a))

theorem bind_replay_nil (m : Option Mem.Store) : m = m.bind (replay []) := by
  cases m <;> rfl

/-- A turn that stores no block executes what it logs. -/
theorem Agree.replay_move (h : Agree s) (a : Turn cfg.numCpus κ)
    (hfresh : (System.move clk a s).memory.fresh = s.memory.fresh) :
    ∃ es, (System.move clk a s).threads.log = s.threads.log ++ es ∧
      reached (System.move clk a s).memory =
        (reached s.memory).bind (replay (es.map Executed.ins)) := by
  rcases stutter_cases (System.step clk) a s with hs | hs
  · rw [System.move] at hfresh ⊢
    cases h.effect hs with
    | load junk _ _ hm =>
      rw [hm] at hfresh
      exact absurd hfresh (Nat.succ_ne_self _)
    | exec e store store' stat _ hlog hreached hexec hreached' _ _ =>
      refine ⟨[e], hlog, ?_⟩
      rw [hreached', hreached, Option.bind_some, List.map_singleton, replay, List.foldlM_cons, hexec]
      rfl
    | none hlog hreached _ _ =>
      refine ⟨[], hlog.trans (List.append_nil _).symm, ?_⟩
      rw [hreached]
      exact bind_replay_nil _
  · rw [System.move, hs]
    exact ⟨[], (List.append_nil _).symm, bind_replay_nil _⟩

theorem Agree.replay_run (h : Agree s) (as : List (Turn cfg.numCpus κ))
    (hfresh : (Machine.run (System.move clk) as s).memory.fresh = s.memory.fresh) :
    ∃ es, (Machine.run (System.move clk) as s).threads.log = s.threads.log ++ es ∧
      reached (Machine.run (System.move clk) as s).memory =
        (reached s.memory).bind (replay (es.map Executed.ins)) := by
  induction as generalizing s with
  | nil => exact ⟨[], (List.append_nil _).symm, bind_replay_nil _⟩
  | cons a as ih =>
    have hfirst := h.fresh_le clk a
    have hrest := (h.move clk a).fresh_le_run clk as
    rw [run_cons] at hfresh ⊢
    have hsame : (System.move clk a s).memory.fresh = s.memory.fresh := by omega
    obtain ⟨es, hlog, hreached⟩ := h.replay_move a hsame
    obtain ⟨fs, hlog', hreached'⟩ := ih (h.move clk a) (by omega)
    refine ⟨es ++ fs, by rw [hlog', hlog, List.append_assoc], ?_⟩
    rw [hreached', hreached, Option.bind_assoc, List.map_append]
    refine congrArg _ (funext fun store => ?_)
    rw [replay_append]

/-- **The memory is a replay of the log.** From any point of a run on until the loader stores the
next block, what the CPUs have added to the log is, executed one instruction after another on what
the processes reached at that point, what they reach now: in whichever order the CPUs took their
turns, a `READ` in one turn as every instruction. -/
theorem memory_is_replay (cfg : Config Mem.Inst) (clk : Clock (Party cfg.numCpus) κ τ) (t : τ)
    (heap : ℕ → Mem.Mm) (freeFpList : List Mem.Addr) (as bs : List (Turn cfg.numCpus κ))
    (hfresh : (after clk t heap freeFpList (as ++ bs)).memory.fresh =
      (after clk t heap freeFpList as).memory.fresh) :
    ∃ es, (after clk t heap freeFpList (as ++ bs)).threads.log =
        (after clk t heap freeFpList as).threads.log ++ es ∧
      reached (after clk t heap freeFpList (as ++ bs)).memory =
        (reached (after clk t heap freeFpList as).memory).bind (replay (es.map Executed.ins)) := by
  simp only [after, run_append] at hfresh ⊢
  exact (agree_after t heap freeFpList as).replay_run bs hfresh

/-- One CPU, and a process that allocates a region and frees it. -/
def allocFree : Config Mem.Inst where
  timeSlot := 1
  numCpus := 1
  numProcesses := 1
  text := fun _ => [⟨.alloc, 300, 1, 0, 0⟩, ⟨.free, 1, 0, 0, 0⟩]
  prio := fun _ => 0
  startTime := fun _ => 0

/-- A turn with an area of no length in the block that `malloc` returns. -/
def turnOf (who : Simulator.Turn 1 (Timer.Internal (Party 1))) :
    Turn 1 (Timer.Internal (Party 1)) :=
  ⟨who, ⟨some [⟨0, 0, 0, 0, []⟩], fun _ => ⟨0, 0⟩, some []⟩⟩

/-- The loader hands in the process and leaves. -/
def loadTurns : List (Turn 1 (Timer.Internal (Party 1))) := List.replicate 6 (turnOf .ld)

/-- The CPU executes the first instruction in the next slot. -/
def allocTurns : List (Turn 1 (Timer.Internal (Party 1))) :=
  List.replicate 3 (turnOf (.cpu ⟨0, Nat.one_pos⟩)) ++ List.replicate 7 (turnOf (.clock .timer)) ++
    List.replicate 2 (turnOf (.cpu ⟨0, Nat.one_pos⟩))

theorem memory_is_replay_allocFree :
    ∃ es, (after (osClock allocFree) Timer.startTimer (fun _ => Mem.blank) []
        (loadTurns ++ allocTurns)).threads.log =
        (after (osClock allocFree) Timer.startTimer (fun _ => Mem.blank) [] loadTurns).threads.log ++
          es ∧
      reached (after (osClock allocFree) Timer.startTimer (fun _ => Mem.blank) []
          (loadTurns ++ allocTurns)).memory =
        (reached (after (osClock allocFree) Timer.startTimer (fun _ => Mem.blank) []
          loadTurns).memory).bind (replay (es.map Executed.ins)) :=
  memory_is_replay allocFree (osClock allocFree) Timer.startTimer (fun _ => Mem.blank) [] loadTurns
    allocTurns (by decide +kernel)

/-! ### Isolation -/

/-- The turn changes nothing that a process it does not belong to sees. -/
def Isolated (clk : Clock (Party cfg.numCpus) κ τ) (s : State cfg τ) (a : Turn cfg.numCpus κ) :
    Prop :=
  ∀ p : ℕ, (∀ b, memoryTurn a s = some b → p ≠ Mem.owner s.memory b) →
    Mem.view (move clk a s).memory p = Mem.view s.memory p

/-- The loader stores a block when the processes before have been freed. -/
def AllFreed (s : State cfg τ) (a : Turn cfg.numCpus κ) : Prop :=
  a.who = .ld → s.threads.ld = .add → s.mapped = false → s.threads.i < cfg.numProcesses →
    ∀ p : cfg.Proc, (p : ℕ) < s.threads.i → p ∈ s.threads.freed

/-- What is known of the memory in every state reached. -/
structure Known (s : State cfg τ) : Prop extends Agree s where
  /-- The processes there have been given blocks. -/
  loaded : Mem.Loaded s.memory

theorem known_initial (t : τ) (heap : ℕ → Mem.Mm) (freeFpList : List Mem.Addr) :
    Known (initial cfg t heap freeFpList) where
  toAgree := agree_initial t heap freeFpList
  loaded := Mem.loaded_initial heap freeFpList

theorem Known.move (h : Known s) (clk : Clock (Party cfg.numCpus) κ τ) (a : Turn cfg.numCpus κ) :
    Known (move clk a s) where
  toAgree := h.toAgree.move clk a
  loaded := by
    rw [memory_move]
    exact run_invariant (I := Mem.Loaded) (fun b _ hm => Mem.loaded_move hm b) _ h.loaded

/-- What a turn is to the memory when it is taken. -/
theorem memory_of_turn {b : Mem.Turn} (hs : System.step clk a s = some s')
    (hb : memoryTurn a s = some b) : s'.memory = Mem.move (codes cfg) b s.memory := by
  obtain ⟨-, hmemory, -⟩ := step_spec hs
  rw [hb] at hmemory
  exact (stutter_of_some hmemory).symm

/-- The loader's turn that stores a block can be taken. -/
theorem step_load (clk : Clock (Party cfg.numCpus) κ τ) (ha : a.who = .ld)
    (hadd : s.threads.ld = .add) (hmapped : s.mapped = false)
    (hi : s.memory.i < cfg.numProcesses) :
    (System.step clk a s).isSome ∧ memoryTurn a s = some (.load a.junk) := by
  obtain ⟨who, junk⟩ := a
  obtain rfl : who = .ld := ha
  have hcond : s.threads.ld = .add ∧ s.mapped = false := ⟨hadd, hmapped⟩
  have hget : (codes cfg)[s.memory.i]? = some (cfg.text ⟨s.memory.i, hi⟩) := by
    simp [codes, hi]
  refine ⟨?_, if_pos hcond⟩
  simp only [System.step, threadTurn, memoryTurn, if_pos hcond, optional, Mem.turn, hget]
  rfl

/-- When all processes before have been freed, none is there. -/
theorem Known.alone (h : Known s) {b : Mem.Turn} (hall : AllFreed s a)
    (hb : memoryTurn a s = some b) : Mem.Alone (codes cfg) s.memory b := by
  rintro junk rfl hi p
  have hload : a.who = .ld ∧ s.threads.ld = .add ∧ s.mapped = false := by
    obtain ⟨who, junk'⟩ := a
    cases who with
    | ld =>
      simp only [memoryTurn] at hb
      split_ifs at hb with hcond
      exact ⟨rfl, hcond⟩
    | clock k => cases hb
    | cpu c =>
      simp only [memoryTurn, cpuMemory] at hb
      split at hb
      · cases hb
      · split_ifs at hb
        cases hb
      · cases hb
  obtain ⟨ha, hadd, hmapped⟩ := hload
  have hindex := h.index
  rw [hmapped] at hindex
  rw [length_codes] at hi
  by_contra hsome
  have hthere : (s.memory.pcbs p).isSome := Option.isSome_iff_ne_none.mpr hsome
  have hlt := h.loaded.index p hthere
  have hfreed := hall ha hadd hmapped (by simpa [hindex] using hi) ⟨p, by omega⟩
    (by simpa [hindex] using hlt)
  have hpcbs := h.pcbs ⟨p, by omega⟩
  rw [if_neg fun hif => hif.2 hfreed] at hpcbs
  exact hsome hpcbs

/-- A process that has been given a block and has not been freed is there. -/
theorem Agree.isSome_pcbs (h : Agree s) {p : cfg.Proc} (hi : (p : ℕ) < s.memory.i)
    (hp : p ∉ s.threads.freed) : (s.memory.pcbs p).isSome := by
  rw [h.pcbs, if_pos ⟨hi, hp⟩]
  rfl

/-- Storing a block takes away that of a process that is still there. -/
theorem Known.allFreed (h : Known s) (hiso : Isolated clk s a) : AllFreed s a := by
  intro ha hadd hmapped hi p hp
  by_contra hfreed
  have hindex := h.index
  rw [hmapped] at hindex
  have hindex : s.memory.i = s.threads.i := hindex
  obtain ⟨hsome, hb⟩ := step_load clk ha hadd hmapped (hindex ▸ hi)
  obtain ⟨s', hs⟩ := Option.isSome_iff_exists.mp hsome
  have hiso' : Mem.Isolated (codes cfg) s.memory (.load a.junk) := by
    intro q hq
    rw [← memory_of_turn hs hb, ← hiso q ?_, System.move, stutter_of_some hs]
    intro b hb'
    cases hb.symm.trans hb'
    exact hq
  have hthere := h.isSome_pcbs (p := p) (by omega) hfreed
  rw [h.loaded.alone hiso' a.junk rfl (by rw [length_codes]; omega) p] at hthere
  cases hthere

/-- What is known where there is one process at a time. -/
structure Alone (s : State cfg τ) : Prop extends Known s where
  /-- There is no more than one. -/
  single : Mem.Single s.memory

theorem Alone.memory_eq (h : Alone s) (clk : Clock (Party cfg.numCpus) κ τ) (hall : AllFreed s a) :
    (move clk a s).memory = s.memory ∨ ∃ b, memoryTurn a s = some b ∧
      Mem.Alone (codes cfg) s.memory b ∧ (move clk a s).memory = Mem.move (codes cfg) b s.memory := by
  cases hs : System.step clk a s with
  | none => exact .inl (by rw [move, stutter_of_none hs])
  | some s' =>
    rw [move, stutter_of_some hs]
    cases hb : memoryTurn a s with
    | none =>
      obtain ⟨-, hmemory, -⟩ := step_spec hs
      rw [hb] at hmemory
      exact .inl (Option.some.inj hmemory).symm
    | some b => exact .inr ⟨b, rfl, h.alone hall hb, memory_of_turn hs hb⟩

theorem Alone.move (h : Alone s) (clk : Clock (Party cfg.numCpus) κ τ) (hall : AllFreed s a) :
    Alone (move clk a s) where
  toKnown := h.toKnown.move clk a
  single := by
    rcases h.memory_eq clk hall with heq | ⟨b, -, halone, heq⟩ <;> rw [heq]
    · exact h.single
    · exact Mem.single_move h.single halone

theorem Alone.isolated (h : Alone s) (clk : Clock (Party cfg.numCpus) κ τ) (hall : AllFreed s a) :
    Isolated clk s a := by
  intro p hp
  rcases h.memory_eq clk hall with heq | ⟨b, hb, halone, heq⟩ <;> rw [heq]
  exact h.single.isolated halone p (hp b hb)

theorem alone_initial (t : τ) (heap : ℕ → Mem.Mm) (freeFpList : List Mem.Addr) :
    Alone (initial cfg t heap freeFpList) where
  toKnown := known_initial t heap freeFpList
  single := Mem.single_initial heap freeFpList

/-- **When the processes of the simulator are isolated**: the turns of the loader and the CPUs
leave what the other processes see of their memory alone in exactly the runs in which the loader
stores the block of a process only when the CPUs have freed every process before it. -/
theorem isolated_iff (cfg : Config Mem.Inst) (clk : Clock (Party cfg.numCpus) κ τ) (t : τ)
    (heap : ℕ → Mem.Mm) (freeFpList : List Mem.Addr) (as : List (Turn cfg.numCpus κ)) :
    Along (move clk) (Isolated clk) as (initial cfg t heap freeFpList) ↔
      Along (move clk) AllFreed as (initial cfg t heap freeFpList) := by
  constructor
  · intro h
    exact h.mono_of (I := Known) (fun a s hs _ => hs.move clk a) (fun a s hs hiso => hs.allFreed hiso)
      (known_initial t heap freeFpList)
  · intro h
    exact h.mono_of (I := Alone) (fun a s hs hall => hs.move clk hall)
      (fun a s hs hall => hs.isolated clk hall) (alone_initial t heap freeFpList)

/-! ### A process alone -/

/-- What process `p` reaches is what its instructions give on `store`, until it is freed. -/
structure Executes (p : cfg.Proc) (store : Mem.Store) (s : State cfg τ) : Prop extends Alone s where
  /-- It has been given its block. -/
  given : (p : ℕ) < s.memory.i
  /-- What it reaches. -/
  reached_eq : p ∉ s.threads.freed → reached s.memory = replay (executed s.threads p) store

theorem freed_subset_step (hs : System.step clk a s = some s') :
    s.threads.freed ⊆ s'.threads.freed := by
  obtain ⟨hthreads, -, -⟩ := step_spec hs
  cases hturn : threadTurn a s with
  | none =>
    rw [hturn] at hthreads
    rw [Option.some.inj hthreads]
    exact List.Subset.refl _
  | some b =>
    rw [hturn] at hthreads
    exact freed_subset hthreads

theorem executed_append {e : Executed cfg} {t t' : Simulator.State cfg τ}
    (hlog : t'.log = t.log ++ [e]) : executed t' e.proc = executed t e.proc ++ [e.ins] := by
  simp [executed, hlog]

/-- A turn that a process is there for is its own, or leaves what it reaches alone. -/
theorem Executes.move {p : cfg.Proc} {store : Mem.Store} (h : Executes p store s)
    (clk : Clock (Party cfg.numCpus) κ τ) (hall : AllFreed s a) :
    Executes p store (move clk a s) := by
  have halone := h.toAlone.move clk hall
  rcases stutter_cases (System.step clk) a s with hs | hs
  · have hfreed := freed_subset_step hs
    rw [System.move] at halone ⊢
    have hthere : p ∉ (stutter (System.step clk) a s).threads.freed → (s.memory.pcbs p).isSome :=
      fun hp => h.isSome_pcbs h.given fun hmem => hp (hfreed hmem)
    cases h.effect hs with
    | load junk hturn hi hmemory =>
      refine ⟨halone, ?_, ?_⟩
      · rw [hmemory]
        exact h.given.trans (Nat.lt_succ_self _)
      · -- nobody is there when a block is stored
        intro hp
        have hnone := h.alone hall hturn junk rfl (by rwa [length_codes]) p
        rw [hnone] at hthere
        cases hthere hp
    | exec e st st' stat he hlog hreached hexec hreached' _ hi =>
      refine ⟨halone, hi ▸ h.given, ?_⟩
      intro hp
      obtain rfl : p = e.proc := Fin.ext (h.single p e.proc (hthere hp) he)
      have hbefore := h.reached_eq fun hmem => hp (hfreed hmem)
      rw [hreached', executed_append hlog, replay_append, ← hbefore, hreached, Option.bind_some,
        replay, List.foldlM_cons, hexec]
      rfl
    | none hlog hreached _ hi =>
      refine ⟨halone, hi ▸ h.given, ?_⟩
      intro hp
      rw [hreached, h.reached_eq fun hmem => hp (hfreed hmem), executed, executed, hlog]
  · rw [System.move, hs]
    exact h

theorem Alone.executes (h : Alone s) {p : cfg.Proc} (clk : Clock (Party cfg.numCpus) κ τ)
    (hall : AllFreed s a) (ha : a.who = .ld) (hadd : s.threads.ld = .add)
    (hmapped : s.mapped = false) (hp : s.threads.i = p) :
    Executes p ⟨a.junk, s.memory.freeFpList⟩ (System.move clk a s) := by
  have halone := h.move clk hall
  have hindex := h.index
  rw [hmapped] at hindex
  have hindex : s.memory.i = p := hindex.trans hp
  obtain ⟨hsome, hturn⟩ := step_load clk ha hadd hmapped (hindex ▸ p.isLt)
  obtain ⟨s', hs⟩ := Option.isSome_iff_exists.mp hsome
  have hagree := h.step hs
  obtain ⟨hthreads, hmemory, -⟩ := step_spec hs
  have hmemory : s'.memory = Mem.ldRoutine (cfg.text p) a.junk s.memory := by
    rw [hturn] at hmemory
    obtain ⟨hi, hm⟩ := turn_load hmemory
    have hproc : (⟨s.memory.i, hi⟩ : cfg.Proc) = p := Fin.ext hindex
    rwa [hproc] at hm
  have hthreads : s'.threads = s.threads := by
    have hnone : threadTurn a s = none := by
      rw [threadTurn, ha]
      exact if_pos ⟨hadd, hmapped⟩
    rw [hnone] at hthreads
    exact (Option.some.inj hthreads).symm
  rw [System.move, stutter_of_some hs] at halone ⊢
  refine ⟨halone, ?_, ?_⟩
  · rw [hmemory]
    exact hindex.symm.le.trans_lt (Nat.lt_succ_self _)
  · intro _
    rw [hmemory, hagree.inv.executed_eq, hthreads, h.inv.pc_eq_zero p hp.le, List.take_zero]
    simp only [reached, Mem.ldRoutine, Function.update_self, Option.map_some, Mem.initMm]
    rfl

/-- **A process alone.** In a run in which the loader stores the block of a process only when the
processes before have been freed, a process reaches, until it is freed, what the instructions of
its text before `pc` give, executed one after another on what was in the block that `malloc`
returned for it and on the frames that were free then. -/
theorem executes_alone (cfg : Config Mem.Inst) (clk : Clock (Party cfg.numCpus) κ τ) (t : τ)
    (heap : ℕ → Mem.Mm) (freeFpList : List Mem.Addr) (as bs : List (Turn cfg.numCpus κ))
    (junk : Mem.Mm) (p : cfg.Proc)
    (hall : Along (move clk) AllFreed (as ++ ⟨.ld, junk⟩ :: bs) (initial cfg t heap freeFpList))
    (hadd : (after clk t heap freeFpList as).threads.ld = .add)
    (hmapped : (after clk t heap freeFpList as).mapped = false)
    (hp : (after clk t heap freeFpList as).threads.i = p)
    (hfreed : p ∉ (after clk t heap freeFpList (as ++ ⟨.ld, junk⟩ :: bs)).threads.freed) :
    reached (after clk t heap freeFpList (as ++ ⟨.ld, junk⟩ :: bs)).memory =
      replay ((cfg.text p).take
          ((after clk t heap freeFpList (as ++ ⟨.ld, junk⟩ :: bs)).threads.pc p))
        ⟨junk, (after clk t heap freeFpList as).memory.freeFpList⟩ := by
  obtain ⟨hbefore, hload, hrest⟩ := (along_append as _ _).mp hall
  have halone : Alone (after clk t heap freeFpList as) :=
    hbefore.invariant (fun a s hs hall => hs.move clk hall) (alone_initial t heap freeFpList)
  have hexec := hrest.invariant (fun a s hs hall => hs.move clk hall)
    (halone.executes clk hload rfl hadd hmapped hp)
  rw [after, run_append, run_cons] at hfreed ⊢
  rw [hexec.reached_eq hfreed, hexec.inv.executed_eq]

/-- The one process there is need not wait for another. -/
theorem along_allFreed_allocFree (as : List (Turn 1 (Timer.Internal (Party 1)))) :
    Along (move (osClock allocFree)) AllFreed as
      (initial allocFree Timer.startTimer (fun _ => Mem.blank) []) := by
  by_contra h
  obtain ⟨pre, a, post, -, -, hnot⟩ := exists_of_not_along h
  refine hnot fun _ _ _ hi p hp => ?_
  have hone : allocFree.numProcesses = 1 := rfl
  omega

theorem executes_alone_allocFree :
    reached (after (osClock allocFree) Timer.startTimer (fun _ => Mem.blank) []
        (List.replicate 2 (turnOf .ld) ++
          turnOf .ld :: (List.replicate 3 (turnOf .ld) ++ allocTurns))).memory =
      replay ((allocFree.text ⟨0, Nat.one_pos⟩).take
          ((after (osClock allocFree) Timer.startTimer (fun _ => Mem.blank) []
            (List.replicate 2 (turnOf .ld) ++
              turnOf .ld :: (List.replicate 3 (turnOf .ld) ++ allocTurns))).threads.pc ⟨0, Nat.one_pos⟩))
        ⟨(turnOf .ld).junk, (after (osClock allocFree) Timer.startTimer (fun _ => Mem.blank) []
          (List.replicate 2 (turnOf .ld))).memory.freeFpList⟩ :=
  executes_alone allocFree (osClock allocFree) Timer.startTimer (fun _ => Mem.blank) []
    (List.replicate 2 (turnOf .ld)) (List.replicate 3 (turnOf .ld) ++ allocTurns) (turnOf .ld).junk
    ⟨0, Nat.one_pos⟩
    (along_allFreed_allocFree _) (by decide +kernel) (by decide +kernel) (by decide +kernel)
    (by decide +kernel)

end Ossim.System
