import Ossim.Simulator.Ownership

/-!
# The calls of the scheduler

The threads work on the scheduler by `add_proc`, `put_proc` and `get_proc` only, and whoever's
turn it is, the scheduler sees one sequence of calls. In it no process is handed in that is in a
queue: the loader hands in each process once, and a CPU only what it holds (`uses_scheduler`).
-/

namespace Ossim.Simulator

open Machine Sched

variable {ι κ τ : Type*} {cfg : Config ι}

/-- The calls of the scheduler that CPU `c` makes in its next turn. -/
def cpuCalls (c : Fin cfg.numCpus) (s : State cfg τ) : List (Sched.Op cfg.Proc) :=
  match s.cpu c with
  | ⟨.top, none, _⟩ | ⟨.reaped, _, _⟩ | ⟨.requeued, _, _⟩ => [.getProc]
  | ⟨.top, some p, timeLeft⟩ =>
    if s.pc p = cfg.size p then [] else if timeLeft = 0 then [.putProc p] else []
  | _ => []

/-- The calls that a turn makes: one, or none. -/
def calls (a : Turn cfg.numCpus κ) (s : State cfg τ) : List (Sched.Op cfg.Proc) :=
  match a with
  | .cpu c => cpuCalls c s
  | .ld =>
    match s.ld with
    | .add => if h : s.i < cfg.numProcesses then [.addProc ⟨s.i, h⟩] else []
    | _ => []
  | .clock _ => []

/-- What `get_proc` returns to the CPU whose turn it is. -/
def given (a : Turn cfg.numCpus κ) (s : State cfg τ) : List (Option cfg.Proc) :=
  output (call cfg.prio) result (calls a s) s.mlq

variable {clk : Clock (Party cfg.numCpus) κ τ} {s s' : State cfg τ} {c : Fin cfg.numCpus}

/-! ### What a turn does to the scheduler -/

theorem Quiet.cpuCalls_eq {done : Bool} {k k' : τ} {x x' : Cpu cfg.Proc} {s : State cfg τ}
    (h : Quiet clk c done k x k' x') (hx : s.cpu c = x) : cpuCalls c s = [] := by
  cases h with
  | wake | idle | slot | begin | exit | dispatch | stop | skip => rw [cpuCalls, hx]

theorem CpuTurn.mlq_eq (h : CpuTurn clk c s s') :
    s'.mlq = Machine.run (call cfg.prio) (cpuCalls c s) s.mlq := by
  cases h with
  | load t hx => rw [cpuCalls, hx]; rfl
  | replace p t hx => rw [cpuCalls, hx]; rfl
  | rotate p t hx => rw [cpuCalls, hx]; rfl
  | free p t hx hpc => simp only [cpuCalls, hx, if_pos hpc]; rfl
  | put p t hx hpc ht => simp only [cpuCalls, hx, if_neg hpc, if_pos ht]; rfl
  | keep p t hx hpc ht => simp only [cpuCalls, hx, if_neg hpc, if_neg ht]; rfl
  | run p t hx =>
    rw [cpuCalls, hx]
    simp only [setCpu, Simulator.run]
    split_ifs <;> rfl
  | quiet k x hq => rw [hq.cpuCalls_eq rfl]; rfl

theorem LdTurn.mlq_eq (h : LdTurn clk s s') :
    s'.mlq = Machine.run (call cfg.prio) (calls (.ld : Turn cfg.numCpus κ) s) s.mlq := by
  cases h with
  | load hi hloc => simp only [calls, hloc]; rfl
  | store hi hloc => simp only [calls, hloc]; rfl
  | look hi hloc => simp only [calls, hloc]; rfl
  | add hi hloc => simp only [calls, hloc, dif_pos hi]; rfl
  | quiet k l hq =>
    generalize hl : s.ld = l₀ at hq
    cases hq <;> (simp only [calls, hl]; rfl)

/-- A thread that cannot move calls nothing. -/
theorem calls_of_none {a : Turn cfg.numCpus κ} (h : step clk a s = none) : calls a s = [] := by
  cases a with
  | cpu c =>
    change cpuRoutine clk c s = none at h
    unfold cpuRoutine at h
    split at h
    next t hx => cases h
    next p t hx => split_ifs at h
    next p t hx => cases h
    next p t hx => cases h
    all_goals
      rename_i hx
      simp only [calls, cpuCalls, hx]
  | ld =>
    change ldRoutine clk s = none at h
    cases hl : s.ld <;> simp_all [ldRoutine, calls]
  | clock k => rfl

/-- **The scheduler follows the calls.** -/
theorem mlq_move (clk : Clock (Party cfg.numCpus) κ τ) (a : Turn cfg.numCpus κ) (s : State cfg τ) :
    (move clk a s).mlq = Machine.run (call cfg.prio) (calls a s) s.mlq := by
  cases hs : step clk a s with
  | none => rw [move, stutter_of_none hs, calls_of_none hs, run_nil]
  | some s' =>
    rw [move, stutter_of_some hs]
    rcases step_cases hs with ⟨c, rfl, hc⟩ | ⟨rfl, hld⟩ | ⟨i, k, rfl, -, rfl⟩
    · exact hc.mlq_eq
    · exact hld.mlq_eq
    · rfl

theorem mlq_after (cfg : Config ι) (clk : Clock (Party cfg.numCpus) κ τ) (t : τ)
    (as : List (Turn cfg.numCpus κ)) : (after clk t as).mlq =
      Machine.run (call cfg.prio) (output (move clk) calls as (initial cfg t)) start :=
  run_output (mlq_move clk) as _

theorem output_given (clk : Clock (Party cfg.numCpus) κ τ) (as : List (Turn cfg.numCpus κ))
    (s : State cfg τ) : output (move clk) given as s =
      output (call cfg.prio) result (output (move clk) calls as s) s.mlq :=
  output_output (mlq_move clk) as s

/-! ### What is handed in -/

/-- A process handed in is in no queue: it is still the loader's, or a CPU holds it. -/
theorem Inv.not_queued (h : Inv s) {p : cfg.Proc}
    (hp : s.i ≤ (p : ℕ) ∨ ∃ c, held (s.cpu c) = some p) : p ∉ queued s.mlq := by
  have hone := h.copies_eq p
  rw [copies] at hone
  rw [← Multiset.count_eq_zero]
  rcases hp with hp | ⟨c, hp⟩
  · rw [pending, if_pos hp] at hone
    omega
  · have hpos := holders_pos hp
    omega

theorem Inv.along_calls (h : Inv s) (a : Turn cfg.numCpus κ) :
    Along (call cfg.prio) (fun m op => ∀ p, op.handed = some p → p ∉ queued m) (calls a s)
      s.mlq := by
  have hget : Along (call cfg.prio) (fun m op => ∀ p, op.handed = some p → p ∉ queued m) [.getProc]
      s.mlq := ⟨by rintro p ⟨⟩, trivial⟩
  cases a with
  | cpu c =>
    rcases hx : s.cpu c with ⟨l, q, t⟩
    simp only [calls, cpuCalls, hx]
    split
    · exact hget
    · exact hget
    · exact hget
    · rename_i p timeLeft heq
      split_ifs
      · trivial
      · refine ⟨?_, trivial⟩
        rintro p' ⟨⟩
        exact h.not_queued (.inr ⟨c, by rw [hx, heq]; rfl⟩)
      · trivial
    · trivial
  | ld =>
    simp only [calls]
    split
    · split_ifs with hi
      · refine ⟨?_, trivial⟩
        rintro p ⟨⟩
        exact h.not_queued (.inl le_rfl)
      · trivial
    · trivial
  | clock k => trivial

/-- **The scheduler is used as it is meant to be**: in any run it goes through the calls that the
threads make, in the order in which they make them; it returns to them what `get_proc` returns
in this sequence; and no process is handed in that is in a queue. -/
theorem uses_scheduler (cfg : Config ι) (clk : Clock (Party cfg.numCpus) κ τ) (t : τ)
    (as : List (Turn cfg.numCpus κ)) :
    (after clk t as).mlq =
        Machine.run (call cfg.prio) (output (move clk) calls as (initial cfg t)) start ∧
      output (move clk) given as (initial cfg t) =
        output (call cfg.prio) result (output (move clk) calls as (initial cfg t)) start ∧
      Along (call cfg.prio) (fun m op => ∀ p, op.handed = some p → p ∉ queued m)
        (output (move clk) calls as (initial cfg t)) start :=
  ⟨mlq_after cfg clk t as, output_given clk as _,
    along_output (mlq_move clk) (fun a _ h => stutter_invariant (fun _ _ _ h hs => h.step hs) [a] h)
      (fun a _ h => h.along_calls a) as (inv_initial t)⟩

end Ossim.Simulator
