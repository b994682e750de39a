import Ossim.Sched.Fairness
import Ossim.Simulator.Makespan
import Ossim.Simulator.Scheduling

/-!
# How soon a process is given a CPU

A CPU asks for a process whenever its quantum is over, and in every slot in which it has none; so
it begins no more than `time_slot` slots between one call of `get_proc` and the next
(`Metered.cpuTurn`). And a process waits for no more than so many calls. So it waits for no more
than so many slots, the fewer the more CPUs there are (`response_time`).
-/

namespace Ossim.Simulator

open Machine Sched

variable {ι κ τ : Type*} {cfg : Config ι}

/-! ### One CPU -/

/-- The time left of a quantum is within it. -/
structure Metered (cfg : Config ι) (x : Cpu cfg.Proc) : Prop where
  /-- It is no less than nothing. -/
  nonneg : 0 ≤ x.timeLeft
  /-- It is no more than the quantum. -/
  le : x.timeLeft ≤ cfg.timeSlot
  /-- There is some while the process is to be run. -/
  pos : x.loc.Bound → 0 < x.timeLeft
  /-- There is no process where `get_proc` returned none. -/
  empty : x.loc.Empty → x.proc = none

/-- How many slots a CPU may begin before it asks for a process. -/
def slotsLeft (cfg : Config ι) (x : Cpu cfg.Proc) : ℤ :=
  match x with
  | ⟨.recheck, some _, timeLeft⟩ => if timeLeft = 0 then cfg.timeSlot else timeLeft
  | ⟨.recheck, none, _⟩ | ⟨.idle, _, _⟩ => 1
  | ⟨.top, some _, timeLeft⟩ | ⟨.slot, _, timeLeft⟩ => timeLeft
  | ⟨.slotWait, _, timeLeft⟩ | ⟨.run, _, timeLeft⟩ => timeLeft - 1
  | _ => 0

/-- What `get_proc` returns to CPU `c`, if the turn is its own. -/
def asked (c : Fin cfg.numCpus) (a : Turn cfg.numCpus κ) (s : State cfg τ) :
    List (Option cfg.Proc) :=
  match a with
  | .cpu c' => if c' = c then given a s else []
  | _ => []

variable {x : Cpu cfg.Proc}

theorem Metered.slotsLeft_nonneg (hts : 1 ≤ cfg.timeSlot) (h : Metered cfg x) :
    0 ≤ slotsLeft cfg x := by
  obtain ⟨l, p, t⟩ := x
  have hnonneg := h.nonneg
  have hpos := h.pos
  cases l <;> cases p <;> simp_all [slotsLeft, CpuLoc.Bound]
  all_goals (try split_ifs) <;> omega

theorem Metered.slotsLeft_le (hts : 1 ≤ cfg.timeSlot) (h : Metered cfg x) :
    slotsLeft cfg x ≤ cfg.timeSlot := by
  obtain ⟨l, p, t⟩ := x
  have hle := h.le
  cases l <;> cases p <;> simp_all [slotsLeft]
  all_goals (try split_ifs) <;> omega

variable {s s' : OsState cfg} {c : Fin cfg.numCpus}

/-- A CPU that has asked for a process. -/
theorem Metered.fetch {l : CpuLoc} {t : ℤ} (hl : l = .idle ∨ l = .recheck) (hnonneg : 0 ≤ t)
    (hle : t ≤ cfg.timeSlot) : Metered cfg ((fetch c l t s).cpu c) := by
  rw [Simulator.fetch, setCpu_self]
  cases hget : (getProc s.mlq).1 with
  | none => exact ⟨hnonneg, hle, by rcases hl with rfl | rfl <;> exact False.elim, fun _ => rfl⟩
  | some p => exact ⟨hnonneg, hle, False.elim, False.elim⟩

theorem length_given_of_get {a : Turn cfg.numCpus κ} {s : State cfg τ} (h : calls a s = [.getProc]) :
    (given a s).length = 1 := by
  rw [given, h]
  rfl

/-- A CPU that moves without a call of the scheduler: a slot that it begins is one less to come. -/
theorem Quiet.metered {done : Bool} {k k' : Timer.State (Party cfg.numCpus)} {x' : Cpu cfg.Proc}
    (h : Quiet (osClock cfg) c done k x k' x') (hts : 1 ≤ cfg.timeSlot) (hx : Metered cfg x) :
    Metered cfg x' ∧ ((k'.dev (.cpu c)).started : ℤ) + slotsLeft cfg x' ≤
      (k.dev (.cpu c)).started + slotsLeft cfg x := by
  have hnonneg := hx.nonneg
  have hle := hx.le
  cases h with
  | dispatch p t =>
    simp only at hnonneg hle
    refine ⟨⟨?_, ?_, fun _ => ?_, False.elim⟩, le_rfl⟩ <;> simp only <;> split_ifs <;> omega
  | stop t _ => exact ⟨⟨hnonneg, hle, False.elim, fun _ => rfl⟩, by simp [slotsLeft]⟩
  | skip t _ => exact ⟨⟨hnonneg, hle, False.elim, fun _ => rfl⟩, le_rfl⟩
  | idle p t h =>
    obtain ⟨-, -, hstarted, -⟩ := Timer.nextSlot_spec h
    refine ⟨⟨hnonneg, hle, False.elim, fun _ => hx.empty trivial⟩, ?_⟩
    rw [hstarted]
    simp [slotsLeft]
  | wake p t h =>
    obtain ⟨-, -, hstarted, -⟩ := Timer.leave_spec h
    obtain rfl : p = none := hx.empty trivial
    refine ⟨⟨hnonneg, hle, False.elim, False.elim⟩, ?_⟩
    rw [hstarted]
    simp [slotsLeft]
  | slot p t h =>
    obtain ⟨-, -, hstarted, -⟩ := Timer.nextSlot_spec h
    refine ⟨⟨hnonneg, hle, fun _ => hx.pos trivial, False.elim⟩, ?_⟩
    rw [hstarted]
    simp [slotsLeft]
  | begin p t h =>
    obtain ⟨-, -, hstarted, -⟩ := Timer.leave_spec h
    refine ⟨⟨hnonneg, hle, fun _ => hx.pos trivial, False.elim⟩, ?_⟩
    rw [hstarted]
    simp [slotsLeft]
  | exit p t h =>
    obtain ⟨-, -, hstarted, -⟩ := Timer.detachEvent_spec h
    refine ⟨⟨hnonneg, hle, False.elim, fun _ => hx.empty trivial⟩, ?_⟩
    rw [hstarted]
    simp [slotsLeft]

/-- **The law of the slots of a CPU**: those it begins come out of those it had left, and it gets
no more than a quantum of them when it asks for a process. -/
theorem Metered.cpuTurn (hts : 1 ≤ cfg.timeSlot) (h : Metered cfg (s.cpu c))
    (hs : CpuTurn (osClock cfg) c s s') :
    Metered cfg (s'.cpu c) ∧ (begun s' c : ℤ) + slotsLeft cfg (s'.cpu c) ≤
      begun s c + slotsLeft cfg (s.cpu c) +
        cfg.timeSlot * (asked c (.cpu c : OsTurn cfg) s).length := by
  have hnonneg := h.nonneg
  have hle := h.le
  have hask : asked c (.cpu c : OsTurn cfg) s = given (.cpu c : OsTurn cfg) s := if_pos rfl
  have hlen : (0 : ℤ) ≤ cfg.timeSlot * (asked c (.cpu c : OsTurn cfg) s).length :=
    mul_nonneg (by omega) (Nat.cast_nonneg _)
  -- a CPU that asks had no slots left, and gets no more than a quantum
  have hfetch : ∀ (l : CpuLoc) (t : ℤ), (l = .idle ∨ l = .recheck) → 0 ≤ t → t ≤ cfg.timeSlot →
      calls (.cpu c : OsTurn cfg) s = [.getProc] → slotsLeft cfg (s.cpu c) = 0 →
      Metered cfg ((Simulator.fetch c l t s).cpu c) ∧
        (begun (Simulator.fetch c l t s) c : ℤ) + slotsLeft cfg ((Simulator.fetch c l t s).cpu c) ≤
          begun s c + slotsLeft cfg (s.cpu c) +
            cfg.timeSlot * (asked c (.cpu c : OsTurn cfg) s).length := by
    intro l t hl hnonneg hle hcalls hzero
    have hfetched := Metered.fetch (s := s) (c := c) hl hnonneg hle
    refine ⟨hfetched, ?_⟩
    have hslots := hfetched.slotsLeft_le hts
    have hbegun : begun (Simulator.fetch c l t s) c = begun s c := rfl
    rw [hask, length_given_of_get hcalls, hzero, hbegun]
    omega
  -- one that does not, and begins no slot
  have hstay : ∀ {x : Cpu cfg.Proc} {s' : OsState cfg}, s'.cpu c = x → begun s' c = begun s c →
      Metered cfg x → slotsLeft cfg x ≤ slotsLeft cfg (s.cpu c) →
      Metered cfg (s'.cpu c) ∧ (begun s' c : ℤ) + slotsLeft cfg (s'.cpu c) ≤
        begun s c + slotsLeft cfg (s.cpu c) +
          cfg.timeSlot * (asked c (.cpu c : OsTurn cfg) s).length := by
    intro x s' hx hbegun hmetered hslots
    rw [hx, hbegun]
    exact ⟨hmetered, by omega⟩
  cases hs with
  | load t hx =>
    rw [hx] at hnonneg hle
    exact hfetch _ _ (.inl rfl) hnonneg hle (by rw [calls, cpuCalls, hx]) (by rw [hx]; rfl)
  | replace p t hx =>
    exact hfetch _ _ (.inr rfl) le_rfl (by omega) (by rw [calls, cpuCalls, hx]) (by rw [hx]; rfl)
  | rotate p t hx =>
    rw [hx] at hnonneg hle
    exact hfetch _ _ (.inr rfl) hnonneg hle (by rw [calls, cpuCalls, hx]) (by rw [hx]; rfl)
  | free p t hx hpc =>
    rw [hx] at hnonneg hle
    exact hstay (setCpu_self s c _) rfl ⟨hnonneg, hle, False.elim, False.elim⟩
      (by rw [hx]; exact hnonneg)
  | put p t hx hpc ht =>
    rw [hx] at hnonneg hle
    exact hstay (setCpu_self _ c _) rfl ⟨hnonneg, hle, False.elim, False.elim⟩
      (by rw [hx]; exact hnonneg)
  | keep p t hx hpc ht =>
    rw [hx] at hnonneg hle
    refine hstay (setCpu_self s c _) rfl ⟨hnonneg, hle, False.elim, False.elim⟩ ?_
    rw [hx, slotsLeft, slotsLeft, if_neg ht]
  | run p t hx =>
    have hpos := h.pos (by rw [hx]; trivial)
    rw [hx] at hnonneg hle hpos
    simp only at hnonneg hle hpos
    refine hstay (setCpu_self _ c _) ?_ ⟨?_, ?_, False.elim, False.elim⟩ (by rw [hx]; exact le_rfl)
    · simp only [begun, setCpu, Simulator.run]
      split_ifs <;> rfl
    · simp only
      omega
    · simp only
      omega
  | quiet k x hq =>
    obtain ⟨hmetered, hslots⟩ := hq.metered hts h
    rw [setCpu_self]
    refine ⟨hmetered, ?_⟩
    have hbegun : begun (setCpu { s with clock := k } c x) c = (k.dev (.cpu c)).started := rfl
    rw [hbegun, begun]
    omega

/-! ### Runs -/

/-- The law of the slots, whoever's turn it is. -/
theorem Metered.move (hts : 1 ≤ cfg.timeSlot) (h : Metered cfg (s.cpu c)) (hinv : Inv s)
    (a : OsTurn cfg) :
    Metered cfg ((Simulator.move (osClock cfg) a s).cpu c) ∧
      (begun (Simulator.move (osClock cfg) a s) c : ℤ) +
          slotsLeft cfg ((Simulator.move (osClock cfg) a s).cpu c) ≤
        begun s c + slotsLeft cfg (s.cpu c) + cfg.timeSlot * (asked c a s).length := by
  have hlen : (0 : ℤ) ≤ cfg.timeSlot * (asked c a s).length :=
    mul_nonneg (by omega) (Nat.cast_nonneg _)
  rcases stutter_cases (step (osClock cfg)) a s with hs | hs
  · rw [Simulator.move]
    by_cases ha : a = .cpu c
    · subst ha
      exact h.cpuTurn hts (cpuTurn_of_cpuRoutine hs)
    · obtain ⟨hcpu, -, hbegun⟩ := undisturbed hinv ha hs
      rw [hcpu, hbegun]
      exact ⟨h, by omega⟩
  · rw [Simulator.move, hs]
    exact ⟨h, by omega⟩

theorem inv_move (h : Inv s) (a : OsTurn cfg) : Inv (move (osClock cfg) a s) :=
  stutter_invariant (fun _ _ _ h hs => h.step hs) [a] h

theorem Metered.run (hts : 1 ≤ cfg.timeSlot) (h : Metered cfg (s.cpu c)) (hinv : Inv s)
    (as : List (OsTurn cfg)) :
    Metered cfg ((Machine.run (Simulator.move (osClock cfg)) as s).cpu c) ∧
      (begun (Machine.run (Simulator.move (osClock cfg)) as s) c : ℤ) +
          slotsLeft cfg ((Machine.run (Simulator.move (osClock cfg)) as s).cpu c) ≤
        begun s c + slotsLeft cfg (s.cpu c) +
          cfg.timeSlot * (output (Simulator.move (osClock cfg)) (asked c) as s).length := by
  induction as generalizing s with
  | nil => exact ⟨h, by simp [output]⟩
  | cons a as ih =>
    obtain ⟨hmetered, hstep⟩ := h.move hts hinv a
    obtain ⟨hmetered', hrest⟩ := ih hmetered (inv_move hinv a)
    refine ⟨hmetered', ?_⟩
    rw [run_cons, output, List.length_append, Nat.cast_add, mul_add]
    omega

/-- A call of `get_proc` is one CPU's. -/
theorem sum_asked_le (A : Finset (Fin cfg.numCpus)) (as : List (OsTurn cfg)) (s : OsState cfg) :
    ∑ c ∈ A, (output (move (osClock cfg)) (asked c) as s).length ≤
      (output (move (osClock cfg)) given as s).length := by
  induction as generalizing s with
  | nil => simp [output]
  | cons a as ih =>
    have hone : ∑ c ∈ A, (asked c a s).length ≤ (given a s).length := by
      cases a with
      | cpu c' =>
        simp only [asked, apply_ite List.length, List.length_nil, Finset.sum_ite_eq]
        split_ifs
        · exact le_rfl
        · exact Nat.zero_le _
      | ld => simp [asked]
      | clock k => simp [asked]
    simp only [output, List.length_append, Finset.sum_add_distrib]
    exact Nat.add_le_add hone (ih _)

theorem metered_after (hts : 1 ≤ cfg.timeSlot) (as : List (OsTurn cfg)) (c : Fin cfg.numCpus) :
    Metered cfg ((simulate cfg as).cpu c) :=
  (Metered.run hts (s := initial cfg Timer.startTimer) ⟨le_rfl, by simp only [initial]; omega,
    False.elim, False.elim⟩ (inv_initial _) as).1

/-! ### How long a process waits -/

/-- The CPUs that have not left. -/
def present (s : OsState cfg) : Finset (Fin cfg.numCpus) :=
  Finset.univ.filter fun c => (s.cpu c).loc ≠ .exited

/-- The slots that pass while a CPU is there, against the calls it makes. -/
theorem slots_le (hts : 1 ≤ cfg.timeSlot) (as bs : List (OsTurn cfg))
    (hc : c ∈ present (simulate cfg (as ++ bs))) :
    ((simulate cfg (as ++ bs)).clock.time : ℤ) - (simulate cfg as).clock.time ≤
      cfg.timeSlot *
        ((output (move (osClock cfg)) (asked c) bs (simulate cfg as)).length + 1) + 1 := by
  have hinv := inv_after (osClock cfg) Timer.startTimer as
  have hmetered := metered_after hts as c
  have hlater : simulate cfg (as ++ bs) = Machine.run (move (osClock cfg)) bs (simulate cfg as) :=
    run_append as bs _
  have hthere := (Finset.mem_filter.mp hc).2
  have hthere' : ((simulate cfg as).cpu c).loc ≠ .exited := by
    intro hexit
    rw [hlater] at hthere
    exact hthere (Exited.run (d := .cpu c) hexit hinv bs)
  obtain ⟨hmetered', hlaw⟩ := hmetered.run hts hinv bs
  rw [← hlater] at hmetered' hlaw
  have hleft := hmetered.slotsLeft_le hts
  have hleft' := hmetered'.slotsLeft_nonneg hts
  have hbegun := (inStep_after as).begun_cases hthere'
  have hbegun' := (inStep_after (as ++ bs)).begun_cases hthere
  rw [mul_add, mul_one]
  omega

/-- **How soon a process is given a CPU.** Let a process wait with `k` others ahead of it in queue
`q`. Until `get_proc` returns it to a CPU, the slots that pass, times the CPUs that are there, come
to less than a quantum for each of `(k + 1) (9870 + q)` calls and for each CPU, and one slot more for
each CPU. -/
theorem response_time (cfg : Config ι) (hts : 1 ≤ cfg.timeSlot) (as bs : List (OsTurn cfg))
    (q : Fin maxPrio) (k : ℕ) (p : cfg.Proc)
    (hp : ((simulate cfg as).mlq.mlqReadyQueue q).toList[k]? = some p)
    (hwait : some p ∉ output (move (osClock cfg)) given bs (simulate cfg as)) :
    (present (simulate cfg (as ++ bs))).card *
        (((simulate cfg (as ++ bs)).clock.time : ℤ) - (simulate cfg as).clock.time) <
      cfg.timeSlot * ((k + 1) * (9870 + q) + (present (simulate cfg (as ++ bs))).card) +
        (present (simulate cfg (as ++ bs))).card := by
  -- the calls that do not return the process are few
  have hcalls : (output (move (osClock cfg)) given bs (simulate cfg as)).length <
      (k + 1) * (9870 + q) := by
    have hsound : Sched.Sound cfg.prio (simulate cfg as).mlq := by
      rw [simulate, mlq_after]
      exact sound_run _
    rw [output_given, result_output] at hwait ⊢
    rw [← maxWait_quota]
    exact Dispatch.RoundRobin.taken_length_lt quota_pos _ hsound.credit_le hp hwait
  -- and each CPU makes its own share of them
  have hslots := Finset.sum_le_sum fun c hc => slots_le (c := c) hts as bs hc
  have hshare := sum_asked_le (present (simulate cfg (as ++ bs))) bs (simulate cfg as)
  rw [Finset.sum_const, Finset.sum_add_distrib, ← Finset.mul_sum, Finset.sum_add_distrib,
    Finset.sum_const, nsmul_eq_mul, nsmul_eq_mul, mul_one, ← Nat.cast_sum] at hslots
  generalize (∑ c ∈ present (simulate cfg (as ++ bs)),
    (output (move (osClock cfg)) (asked c) bs (simulate cfg as)).length) = asks at hslots hshare
  have hlt : (asks : ℤ) < (k + 1) * (9870 + q) := by exact_mod_cast hshare.trans_lt hcalls
  have hquanta := mul_lt_mul_of_pos_left hlt (show 0 < cfg.timeSlot by omega)
  rw [mul_add] at hslots ⊢
  omega

/-- The third process waits behind two others, and behind none when two slots have passed. -/
theorem response_time_threeProcesses :
    (present (simulate threeProcesses (handInTurns ++ slotTurns 2))).card *
        (((simulate threeProcesses (handInTurns ++ slotTurns 2)).clock.time : ℤ) -
          (simulate threeProcesses handInTurns).clock.time) <
      threeProcesses.timeSlot * (((2 : ℕ) + 1) * (9870 + (⟨0, Nat.succ_pos 139⟩ : Fin maxPrio)) +
          (present (simulate threeProcesses (handInTurns ++ slotTurns 2))).card) +
        (present (simulate threeProcesses (handInTurns ++ slotTurns 2))).card :=
  response_time threeProcesses (by decide) handInTurns (slotTurns 2) ⟨0, Nat.succ_pos 139⟩ 2
    ⟨2, Nat.lt_succ_self 2⟩ (by decide +kernel) (by decide +kernel)

end Ossim.Simulator
