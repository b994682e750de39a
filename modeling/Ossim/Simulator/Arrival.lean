import Mathlib.Data.Finset.Lattice.Fold
import Mathlib.Order.Lattice.Nat
import Ossim.Simulator.Slots

/-!
# Arrival times

The loader waits for the start time of a process by calling `next_slot`, and goes through
the processes in the order of the list. So it never runs ahead of the time, and is late for
a process only because it had to wait for one before it: it hands process `i` to the
scheduler in the slot whose number is the latest of the start times up to `i`'s, whatever
the CPUs do meanwhile (`arrivals_eq`). A CPU that gets the process runs it after the next
call of `next_slot`, and so in a later slot (`arrival_times`).
-/

namespace Ossim.Simulator

open Sched

variable {ι : Type*} {cfg : Config ι}

/-! ### Start times -/

/-- The latest of the first `k` start times, `0` if there is none. -/
def latest (cfg : Config ι) (k : ℕ) : ℕ :=
  (Finset.univ.filter fun p : cfg.Proc => (p : ℕ) < k).sup cfg.startTime

@[simp] theorem latest_zero (cfg : Config ι) : latest cfg 0 = 0 := by simp [latest]

theorem latest_succ {k : ℕ} (hk : k < cfg.numProcesses) :
    latest cfg (k + 1) = max (latest cfg k) (cfg.startTime ⟨k, hk⟩) := by
  have hinsert : (Finset.univ.filter fun p : cfg.Proc => (p : ℕ) < k + 1) =
      insert ⟨k, hk⟩ (Finset.univ.filter fun p : cfg.Proc => (p : ℕ) < k) := by
    ext p
    simp only [Finset.mem_filter, Finset.mem_univ, true_and, Finset.mem_insert, Fin.ext_iff]
    omega
  rw [latest, hinsert, Finset.sup_insert, max_comm]
  rfl

theorem latest_le_succ (cfg : Config ι) (k : ℕ) : latest cfg k ≤ latest cfg (k + 1) := by
  apply Finset.sup_mono
  intro p hp
  rw [Finset.mem_filter] at hp ⊢
  exact ⟨hp.1, Nat.lt_succ_of_lt hp.2⟩

theorem startTime_le_latest (p : cfg.Proc) : cfg.startTime p ≤ latest cfg (p + 1) :=
  Finset.le_sup (Finset.mem_filter.mpr ⟨Finset.mem_univ p, Nat.lt_succ_self _⟩)

/-! ### The loader and its device -/

/-- Where the device of the loader is. -/
def LdLoc.phase : LdLoc → Timer.Phase
  | .idleWait => .inside
  | .exited => .detached
  | _ => .outside

/-- How many slots the loader may have begun when it is to hand over process `i`. -/
def Due (cfg : Config ι) (i started : ℕ) : LdLoc → Prop
  | .head => started = latest cfg i
  | .check | .idleWait => latest cfg i ≤ started ∧ started ≤ latest cfg (i + 1)
  | .idle => latest cfg i ≤ started ∧ started < latest cfg (i + 1)
  | .add => started = latest cfg (i + 1)
  | .detach | .exited => True

/-- The loader is neither early nor late. -/
structure OnTime (s : OsState cfg) : Prop where
  /-- The device of the loader is where the loader is. -/
  coupled : (s.clock.dev .ld).phase = s.ld.phase
  /-- The slots it has begun are those it had to wait for. -/
  due : Due cfg s.i (s.clock.dev .ld).started s.ld

theorem onTime_initial : OnTime (initial cfg Timer.startTimer) where
  coupled := rfl
  due := (latest_zero cfg).symm

variable {s s' : OsState cfg} {c : Fin cfg.numCpus}

/-- Outside `next_slot` the time is the number of slots begun. -/
theorem OnTime.time_eq (h : OnTime s) (hin : InStep s) (hld : s.ld.phase = .outside) :
    s.clock.time = (s.clock.dev .ld).started := by
  have hloc := Timer.Device.phase_eq_outside_iff.mp (h.coupled.trans hld)
  obtain ⟨-, -, -, hstarted, -⟩ := hin.timer.working_of_loc hloc
  exact hstarted.symm

/-- A turn of a CPU does nothing to the loader. -/
theorem CpuTurn.ld_eq (h : CpuTurn (osClock cfg) c s s') :
    s'.ld = s.ld ∧ s'.i = s.i ∧ s'.clock.dev .ld = s.clock.dev .ld := by
  cases h with
  | run p t hx =>
    simp only [setCpu, Simulator.run]
    split_ifs <;> exact ⟨rfl, rfl, rfl⟩
  | quiet k x hq =>
    refine ⟨rfl, rfl, hq.clock_eq.1 .ld ?_⟩
    intro he
    cases he
  | _ => exact ⟨rfl, rfl, rfl⟩

theorem OnTime.ldTurn (h : OnTime s) (hin : InStep s) (hs : LdTurn (osClock cfg) s s') :
    OnTime s' := by
  have hcoupled := h.coupled
  have hdue := h.due
  cases hs with
  | load hi hloc =>
    rw [hloc] at hcoupled hdue
    exact ⟨hcoupled, hdue.ge, hdue.le.trans (latest_le_succ cfg s.i)⟩
  | store hi hloc =>
    rw [hloc] at hcoupled
    exact ⟨hcoupled, trivial⟩
  | look hi hloc =>
    have htime := h.time_eq hin (by rw [hloc]; rfl)
    have hlatest := latest_succ hi
    rw [hloc] at hcoupled hdue
    obtain ⟨hle, hlt⟩ := hdue
    by_cases hearly : (osClock cfg).currentTime s.clock < cfg.startTime ⟨s.i, hi⟩
    · simp only [if_pos hearly]
      refine ⟨hcoupled, hle, ?_⟩
      show (s.clock.dev .ld).started < _
      rw [hlatest, ← htime]
      exact lt_max_of_lt_right hearly
    · simp only [if_neg hearly]
      refine ⟨hcoupled, ?_⟩
      show (s.clock.dev .ld).started = _
      refine hlt.antisymm ?_
      rw [hlatest]
      refine max_le hle ?_
      rw [← htime]
      exact not_lt.mp hearly
  | add hi hloc =>
    rw [hloc] at hcoupled hdue
    exact ⟨hcoupled, hdue⟩
  | quiet k l hq =>
    generalize s.ld = l₀ at hq hdue
    generalize s.clock = k₀ at hq hdue
    cases hq with
    | idle hnext =>
      obtain ⟨-, hphase, hstarted, -⟩ := Timer.nextSlot_spec hnext
      refine ⟨hphase, ?_⟩
      show Due cfg s.i (k.dev .ld).started .idleWait
      rw [hstarted]
      exact ⟨hdue.1.trans (Nat.le_succ _), hdue.2⟩
    | wake hleave =>
      obtain ⟨-, hphase, hstarted, -⟩ := Timer.leave_spec hleave
      refine ⟨hphase, ?_⟩
      show Due cfg s.i (k.dev .ld).started .check
      rw [hstarted]
      exact hdue
    | exit hdetach =>
      obtain ⟨-, hphase, -⟩ := Timer.detachEvent_spec hdetach
      exact ⟨hphase, trivial⟩

theorem OnTime.step {a : OsTurn cfg} (h : OnTime s) (hin : InStep s)
    (hs : step (osClock cfg) a s = some s') : OnTime s' := by
  rcases step_cases hs with ⟨c, -, hc⟩ | ⟨-, hld⟩ | ⟨i, k, -, hk, rfl⟩
  · obtain ⟨hl, hi, hdev⟩ := hc.ld_eq
    exact ⟨by rw [hl, hdev]; exact h.coupled, by rw [hl, hi, hdev]; exact h.due⟩
  · exact h.ldTurn hin hld
  · obtain ⟨hphase, hstarted⟩ := (Timer.internal_spec hk).1 .ld
    exact ⟨hphase.trans h.coupled, by
      show Due cfg s.i (k.dev .ld).started s.ld
      rw [hstarted]
      exact h.due⟩

/-- The loader is on time in every state reached. -/
theorem onTime_after (as : List (OsTurn cfg)) : OnTime (simulate cfg as) := by
  have h : InStep (simulate cfg as) ∧ OnTime (simulate cfg as) :=
    @Machine.stutter_invariant _ _ (Simulator.step (osClock cfg)) (fun s => InStep s ∧ OnTime s)
      (fun _ _ _ h hs => ⟨h.1.step hs, h.2.step h.1 hs⟩) as _ ⟨inStep_initial, onTime_initial⟩
  exact h.2

/-! ### A thread that has left -/

/-- The thread has exited. -/
def Exited (s : OsState cfg) : Party cfg.numCpus → Prop
  | .cpu c => (s.cpu c).loc = .exited
  | .ld => s.ld = .exited

/-- A CPU that has exited takes no turn. -/
theorem Exited.no_turn {clk : Clock (Party cfg.numCpus) (Timer.Internal (Party cfg.numCpus))
      (Timer.State (Party cfg.numCpus))}
    (h : Exited s (.cpu c)) : cpuRoutine clk c s = none := by
  rw [Exited] at h
  rw [cpuRoutine]
  rcases hx : s.cpu c with ⟨l, q, r⟩
  rw [hx] at h
  obtain rfl : l = .exited := h
  rfl

/-- A thread that has exited stays where it is. -/
theorem Exited.step {d : Party cfg.numCpus} {a : OsTurn cfg} (h : Exited s d) (hinv : Inv s)
    (hs : step (osClock cfg) a s = some s') : Exited s' d := by
  cases d with
  | cpu c =>
    have ha : a ≠ .cpu c := by
      rintro rfl
      rw [Simulator.step, h.no_turn] at hs
      cases hs
    rw [Exited, (undisturbed hinv ha hs).cpu_eq]
    exact h
  | ld =>
    have hld : s.ld = .exited := h
    rcases step_cases hs with ⟨c, -, hc⟩ | ⟨-, hturn⟩ | ⟨i, k, -, -, rfl⟩
    · exact hc.ld_eq.1.trans hld
    · cases hturn with
      | load _ hl | store _ hl | look _ hl | add _ hl => exact absurd (hl.symm.trans hld) (by simp)
      | quiet k l hq =>
        rw [hld] at hq
        cases hq
    · exact h

theorem Exited.run {d : Party cfg.numCpus} (h : Exited s d) (hinv : Inv s)
    (as : List (OsTurn cfg)) : Exited (Machine.run (move (osClock cfg)) as s) d := by
  have hboth := @Machine.stutter_invariant _ _ (Simulator.step (osClock cfg))
    (fun s => Inv s ∧ Exited s d) (fun _ _ _ h hs => ⟨h.1.step hs, h.2.step h.1 hs⟩) as _ ⟨hinv, h⟩
  exact hboth.2

/-! ### The processes that have arrived -/

/-- A turn hands over the next process, or none. -/
theorem i_cases {a : OsTurn cfg} (hs : step (osClock cfg) a s = some s') :
    s'.i = s.i ∨ (a = .ld ∧ s.ld = .add ∧ s.i < cfg.numProcesses ∧ s'.i = s.i + 1) := by
  rcases step_cases hs with ⟨c, -, hc⟩ | ⟨ha, hld⟩ | ⟨i, k, -, -, rfl⟩
  · exact .inl hc.ld_eq.2.1
  · cases hld with
    | add hi hloc => exact .inr ⟨ha, hloc, hi, rfl⟩
    | _ => exact .inl rfl
  · exact .inl rfl

/-- A turn runs an instruction of a process whose CPU is in the slot to run it, or none. -/
theorem log_cases {a : OsTurn cfg} (hs : step (osClock cfg) a s = some s') :
    s'.log = s.log ∨ ∃ c p ins, InSlot p (s.cpu c) ∧ (s.cpu c).loc.phase = .outside ∧
      s'.log = s.log ++ [⟨c, p, ins, s.clock.time⟩] := by
  rcases step_cases hs with ⟨c, -, hc⟩ | ⟨-, hld⟩ | ⟨i, k, -, -, rfl⟩
  · cases hc with
    | run p t hx =>
      simp only [setCpu, run]
      split_ifs with hpc
      · exact .inl rfl
      · refine .inr ⟨c, p, _, ?_, ?_, rfl⟩
        · rw [hx]
          exact ⟨rfl, .inr rfl⟩
        · rw [hx]
          rfl
    | _ => exact .inl rfl
  · cases hld <;> exact .inl rfl
  · exact .inl rfl

/-- Nothing is early. -/
structure Punctual (s : OsState cfg) : Prop where
  /-- The processes handed over have had their start times come. -/
  arrived : ∀ p : cfg.Proc, (p : ℕ) < s.i → latest cfg (p + 1) ≤ s.clock.time
  /-- A CPU runs a process in a slot after that in which it arrived. -/
  waits : ∀ c p, InSlot p (s.cpu c) → latest cfg (p + 1) < begun s c
  /-- So it was with those run. -/
  past : ∀ e ∈ s.log, latest cfg (e.proc + 1) < e.time

theorem punctual_initial : Punctual (initial cfg Timer.startTimer) where
  arrived := nofun
  waits := nofun
  past := nofun

theorem Punctual.step {a : OsTurn cfg} (h : Punctual s) (hinv : Inv s) (hin : InStep s)
    (hon : OnTime s) (hs : Simulator.step (osClock cfg) a s = some s') : Punctual s' where
  arrived := by
    intro p hp
    refine le_trans ?_ (time_le hs)
    rcases i_cases hs with hi | ⟨-, hld, -, hi⟩
    · exact h.arrived p (hi ▸ hp)
    · rw [hi] at hp
      rcases Nat.lt_succ_iff_lt_or_eq.mp hp with hp | hp
      · exact h.arrived p hp
      · -- the process handed over by this turn
        have hdue := hon.due
        rw [hld] at hdue
        rw [hp, hon.time_eq hin (by rw [hld]; rfl)]
        exact hdue.ge
  waits := by
    intro c p hslot
    by_cases ha : a = .cpu c
    · subst ha
      have hturn := cpuTurn_of_cpuRoutine hs
      obtain ⟨-, ⟨hslot, hbegun⟩ | ⟨hout, hbegun⟩⟩ := inSlot_of_cpuTurn hturn hslot
      · rw [hbegun]
        exact h.waits c p hslot
      · -- the slot it enters is the one after this
        have harrived : (p : ℕ) < s.i := by
          rw [← hturn.ld_eq.2.1]
          exact not_le.mp ((hinv.step hs).of_held hslot.held_eq).2
        rw [hbegun, ← hin.time_eq hout]
        exact Nat.lt_succ_of_le (h.arrived p harrived)
    · obtain ⟨hcpu, -, hbegun⟩ := undisturbed hinv ha hs
      rw [hbegun]
      exact h.waits c p (hcpu ▸ hslot)
  past := by
    intro e he
    rcases log_cases hs with hlog | ⟨c, p, ins, hslot, hout, hlog⟩
    · exact h.past e (hlog ▸ he)
    · rw [hlog] at he
      rcases List.mem_append.mp he with he | he
      · exact h.past e he
      · obtain rfl := List.mem_singleton.mp he
        show latest cfg (p + 1) < s.clock.time
        rw [hin.time_eq hout]
        exact h.waits c p hslot

/-- Nothing is early in any state reached. -/
theorem punctual_after (as : List (OsTurn cfg)) : Punctual (simulate cfg as) := by
  have h : Inv (simulate cfg as) ∧ InStep (simulate cfg as) ∧ OnTime (simulate cfg as) ∧
      Punctual (simulate cfg as) :=
    @Machine.stutter_invariant _ _ (Simulator.step (osClock cfg))
      (fun s => Inv s ∧ InStep s ∧ OnTime s ∧ Punctual s)
      (fun _ _ _ h hs => ⟨h.1.step hs, h.2.1.step hs, h.2.2.1.step h.2.1 hs,
        h.2.2.2.step h.1 h.2.1 h.2.2.1 hs⟩) as _
      ⟨inv_initial _, inStep_initial, onTime_initial, punctual_initial⟩
  exact h.2.2.2

/-! ### The calls of `add_proc` -/

/-- The call of `add_proc` that a turn makes: the process, and `current_time()`. -/
def arrival (a : OsTurn cfg) (s : OsState cfg) : List (cfg.Proc × ℕ) :=
  match a with
  | .ld =>
    if h : s.ld = .add ∧ s.i < cfg.numProcesses then
      [(⟨s.i, h.2⟩, (osClock cfg).currentTime s.clock)]
    else []
  | .cpu _ | .clock _ => []

/-- The calls of `add_proc` in a run, one after another. -/
def arrivals (cfg : Config ι) (as : List (OsTurn cfg)) : List (cfg.Proc × ℕ) :=
  Machine.output (move (osClock cfg)) arrival as (initial cfg Timer.startTimer)

/-- A turn of which there is no call hands over no process. -/
theorem i_move_of_not {a : OsTurn cfg}
    (ha : ¬ (a = .ld ∧ s.ld = .add ∧ s.i < cfg.numProcesses)) :
    arrival a s = [] ∧ (move (osClock cfg) a s).i = s.i := by
  constructor
  · cases a with
    | ld => exact dif_neg fun h => ha ⟨rfl, h⟩
    | cpu c | clock k => rfl
  · rcases Machine.stutter_cases (Simulator.step (osClock cfg)) a s with hs | hs
    · rcases i_cases hs with hi | ⟨hld, hloc, hi, -⟩
      · exact hi
      · exact absurd ⟨hld, hloc, hi⟩ ha
    · exact congrArg State.i hs

/-- The call of `add_proc` hands over process `i`. -/
theorem i_move_add (hld : s.ld = .add) (hi : s.i < cfg.numProcesses) :
    arrival .ld s = [(⟨s.i, hi⟩, s.clock.time)] ∧ (move (osClock cfg) .ld s).i = s.i + 1 := by
  refine ⟨dif_pos ⟨hld, hi⟩, ?_⟩
  have hs : Simulator.step (osClock cfg) .ld s =
      some { handOver ⟨s.i, hi⟩ s with i := s.i + 1, ld := .head } := by
    simp only [Simulator.step, ldRoutine, hld, dif_pos hi]
  rw [move, Machine.stutter_of_some hs]

/-- **The calls of `add_proc`** in any run: the processes in the order of the list, each at the
latest of the start times up to its own. -/
theorem arrivals_eq (as : List (OsTurn cfg)) :
    arrivals cfg as = ((List.finRange cfg.numProcesses).take (simulate cfg as).i).map
      fun p : cfg.Proc => (p, latest cfg (p + 1)) := by
  induction as using List.reverseRecOn with
  | nil => rfl
  | append_singleton as a ih =>
    have hstate : simulate cfg (as ++ [a]) = move (osClock cfg) a (simulate cfg as) :=
      Machine.run_concat ..
    have hcalls : arrivals cfg (as ++ [a]) = arrivals cfg as ++ arrival a (simulate cfg as) :=
      Machine.output_concat ..
    rw [hcalls, hstate, ih]
    have hon := @onTime_after _ cfg as
    by_cases ha : a = .ld ∧ (simulate cfg as).ld = .add ∧ (simulate cfg as).i < cfg.numProcesses
    · obtain ⟨rfl, hld, hi⟩ := ha
      obtain ⟨hcall, hnext⟩ := i_move_add hld hi
      have hdue := hon.due
      rw [hld] at hdue
      have hlen : (simulate cfg as).i < (List.finRange cfg.numProcesses).length := by
        rwa [List.length_finRange]
      rw [hcall, hnext, hon.time_eq (inStep_after as) (by rw [hld]; rfl), hdue,
        List.take_succ_eq_append_getElem hlen, List.map_append, List.getElem_finRange]
      rfl
    · obtain ⟨hnone, hsame⟩ := i_move_of_not ha
      rw [hnone, hsame, List.append_nil]

/-- **Arrival times.** In every run of the loader, the CPUs and the timer, whatever the start
times are: `add_proc` is called for the processes in the order of the list, for each when
`current_time()` is the latest of the start times up to its own; and an instruction of a
process is executed only in a later slot, and so after its start time. -/
theorem arrival_times (cfg : Config ι) (as : List (OsTurn cfg)) :
    arrivals cfg as = ((List.finRange cfg.numProcesses).take (simulate cfg as).i).map
        (fun p : cfg.Proc => (p, latest cfg (p + 1))) ∧
      ∀ e ∈ (simulate cfg as).log,
        latest cfg (e.proc + 1) < e.time ∧ cfg.startTime e.proc < e.time := by
  refine ⟨arrivals_eq as, ?_⟩
  intro e he
  have hlt := (punctual_after as).past e he
  exact ⟨hlt, (startTime_le_latest e.proc).trans_lt hlt⟩

end Ossim.Simulator
