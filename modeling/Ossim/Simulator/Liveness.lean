import Ossim.Simulator.Makespan
import Ossim.Simulator.Progress

/-!
# Every process is run to its end

In a run that gives every thread turns again and again time goes on, and no CPU idles while a
process waits. So a process is run to its end, whether the CPUs go on or leave
(`eventually_executed`). What may keep it from that is a full queue, or the loader's store
`done = 1` when every CPU is between a `get_proc` that returned `NULL` and its look at `done`.
-/

namespace Ossim.Simulator

open Machine Sched

variable {ι : Type*} {cfg : Config ι} {s s' : OsState cfg} {as : ℕ → OsTurn cfg}

/-! ### The loader leaves -/

/-- How many turns the loader has to go when it has handed in all processes. -/
def LdLoc.toLeave : LdLoc → ℕ
  | .head => 2
  | .detach => 1
  | _ => 0

/-- The loader's turn lets it leave, when it has handed in all processes. -/
theorem helps_leave (cfg : Config ι) :
    Helps (move (osClock cfg)) (fun s => Alive s ∧ cfg.numProcesses ≤ s.i)
      (fun s => s.ld = .exited) (fun s => s.ld.toLeave) (fun _ => .ld) where
  keep := by
    rintro a s ⟨h, hi⟩
    refine ⟨alive_move a h, ?_⟩
    rcases stutter_cases (step (osClock cfg)) a s with hs | hs
    · rcases i_cases hs with hsame | ⟨-, -, hlt, -⟩
      · rw [move, hsame]
        exact hi
      · omega
    · rw [move, hs]
      exact hi
  next := by
    rintro a s ⟨h, hi⟩ hQ -
    have hhere : s.ld = .head ∨ s.ld = .detach := by
      have hload := h.loading
      revert hload hQ
      cases s.ld <;> simp [LdLoc.Loading]
      all_goals omega
    have hleft : left s .ld ≠ 0 := by
      rw [left]
      rcases hhere with hl | hl <;> rw [hl] <;> simp [LdLoc.left]
    cases hs : Simulator.step (osClock cfg) a s with
    | none =>
      have hmove : move (osClock cfg) a s = s := stutter_of_none hs
      rw [hmove]
      refine .inr ⟨?_, rfl, rfl⟩
      rintro rfl
      change ldRoutine (osClock cfg) s = none at hs
      rcases hhere with hl | hl
      · rw [ldRoutine, hl] at hs
        simp only at hs
        split_ifs at hs
      · have hloc : (s.clock.dev .ld).loc = .working := by
          rw [← Timer.Device.phase_eq_outside_iff, h.onTime.coupled, hl]
          rfl
        have hdetach : (Timer.detachEvent .ld s.clock).isSome := by
          simp [Timer.detachEvent, hloc]
        rw [ldRoutine, hl] at hs
        have hnone := Option.map_eq_none_iff.mp hs
        rw [show Timer.detachEvent .ld s.clock = none from hnone] at hdetach
        cases hdetach
    | some s' =>
      have hmove : move (osClock cfg) a s = s' := stutter_of_some hs
      rw [hmove]
      rcases step_cases hs with ⟨c, rfl, hc⟩ | ⟨rfl, hld⟩ | ⟨i, k, rfl, hk, rfl⟩
      · exact .inr ⟨by simp, by rw [hc.ld_eq.1], rfl⟩
      · left
        cases hld with
        | load hlt _ => omega
        | store _ hl => simp [hl, LdLoc.toLeave]
        | look hlt _ => omega
        | add hlt _ => omega
        | quiet k l hq =>
          generalize s.ld = l₀ at hq hhere
          cases hq with
          | idle _ => simp at hhere
          | wake _ => simp at hhere
          | exit _ => simp [LdLoc.toLeave]
      · exact .inr ⟨by simp, rfl, rfl⟩

/-- It leaves for good. -/
theorem exited_mono {n m : ℕ} (h : (stateAt cfg as n).ld = .exited) (hm : n ≤ m) :
    (stateAt cfg as m).ld = .exited := by
  induction m, hm using Nat.le_induction with
  | base => exact h
  | succ m _ ih => exact Exited.run (d := .ld) ih (alive_stateAt as m).inv [as m]

/-! ### What is so from some turn on -/

/-- A process that has been run to its end stays so. -/
theorem Sound.finished_move (h : Sound s) (a : OsTurn cfg) {p : cfg.Proc}
    (hp : s.pc p = cfg.size p) : (move (osClock cfg) a s).pc p = cfg.size p := by
  rcases stutter_cases (Simulator.step (osClock cfg)) a s with hs | hs
  · exact (h.finished_step hs hp).1
  · rw [move, hs]
    exact hp

/-- The loader has left, and every process has been run to its end. -/
structure Complete (s : OsState cfg) : Prop where
  /-- The loader has left. -/
  ld : s.ld = .exited
  /-- Every process has been run to its end. -/
  pc_eq : ∀ p, s.pc p = cfg.size p

theorem sound_stateAt (hsize : ∀ p, 0 < cfg.size p) (as : ℕ → OsTurn cfg) (n : ℕ) :
    Sound (stateAt cfg as n) := by
  rw [stateAt_eq_simulate]
  exact sound_after hsize _

theorem Complete.mono {n m : ℕ} (h : Complete (stateAt cfg as n)) (hsize : ∀ p, 0 < cfg.size p)
    (hm : n ≤ m) : Complete (stateAt cfg as m) := by
  refine ⟨exited_mono h.ld hm, ?_⟩
  intro p
  induction m, hm using Nat.le_induction with
  | base => exact h.pc_eq p
  | succ m _ ih => exact (sound_stateAt hsize as m).finished_move _ ih

/-! ### In a fair run -/

/-- When the CPUs have all left, or have had their slots, all processes have been run. -/
theorem finished_of_late (hfits : cfg.Fits) (hsize : ∀ p, 0 < cfg.size p)
    (hatt : ∀ n, Attended (stateAt cfg as n) (as n)) {n : ℕ}
    (hdone : (stateAt cfg as n).done = true)
    (hlate : latest cfg cfg.numProcesses + 2 + (cfg.numCpus + 1) * ∑ q, cfg.size q ≤
        (stateAt cfg as n).clock.time ∨ Stopped (stateAt cfg as n)) (p : cfg.Proc) :
    (stateAt cfg as n).pc p = cfg.size p := by
  have hsound := sound_stateAt hsize as n
  have hinv := hsound.inv
  have hcovered : Covered (stateAt cfg as n) := by
    rw [stateAt_eq_simulate]
    exact covered_after (along_of_path hatt n)
  have hdropped : (stateAt cfg as n).dropped = [] := by
    rw [stateAt_eq_simulate]
    exact dropped_after _ hfits _ _
  -- if all CPUs have left, one of them would have found a process that waits
  have hexited : (∀ c, ((stateAt cfg as n).cpu c).loc = .exited) →
      (stateAt cfg as n).pc p = cfg.size p := by
    intro hexit
    have hempty : QueuesEmpty (stateAt cfg as n) := by
      rcases hcovered hdone with hempty | ⟨c, hc⟩
      · exact hempty
      · exact absurd (.inr (hexit c)) hc.1
    have hexec : executed (stateAt cfg as n) p = cfg.text p := by
      rw [stateAt_eq_simulate] at hdone hexit hempty ⊢
      exact executed_of_exited hfits hdone hexit hempty p
    have hlen := congrArg List.length hexec
    rw [hinv.executed_eq, List.length_take] at hlen
    have hle := hinv.pc_le p
    rw [Config.size] at hle ⊢
    omega
  rcases hlate with htime | hstop
  · by_cases hactive : (active (stateAt cfg as n)).card = 0
    · apply hexited
      intro c
      by_contra hloc
      have hc : c ∈ active (stateAt cfg as n) := by
        refine Finset.mem_filter.mpr ⟨Finset.mem_univ c, ?_⟩
        rcases hsound.inStep.begun_cases hloc with hbegun | hbegun <;> omega
      exact (Finset.card_pos.mpr ⟨c, hc⟩).ne' hactive
    · by_contra hne
      have hlt : (stateAt cfg as n).pc p < cfg.size p := lt_of_le_of_ne (hinv.pc_le p) hne
      have hslots := hsound.slots_lt
        (by rw [stateAt_eq_simulate]; exact greedy_after hsize _)
        (by rw [hdropped]; exact List.not_mem_nil) hlt
      have hcard : (active (stateAt cfg as n)).card ≤ cfg.numCpus :=
        (Finset.card_le_univ _).trans_eq (Fintype.card_fin _)
      have hsum : cfg.size p ≤ ∑ q, cfg.size q :=
        Finset.single_le_sum (fun _ _ => Nat.zero_le _) (Finset.mem_univ p)
      generalize (active (stateAt cfg as n)).card = k at hactive hslots hcard
      generalize (stateAt cfg as n).clock.time = T at htime hslots
      have hfew : (k - 1) * cfg.size p ≤ cfg.numCpus * ∑ q, cfg.size q :=
        Nat.mul_le_mul (by omega) hsum
      have hmany : T - (latest cfg cfg.numProcesses + 2) ≤
          k * (T - (latest cfg cfg.numProcesses + 2)) :=
        Nat.le_mul_of_pos_left _ (Nat.pos_of_ne_zero hactive)
      rw [Nat.succ_mul] at htime
      omega
  · exact hexited hstop.2

/-- The loader leaves a fair run. -/
theorem Fair.exists_exited (hfair : Fair as) (hsize : ∀ p, 0 < cfg.size p) (n : ℕ) :
    ∃ m, n ≤ m ∧ (stateAt cfg as m).ld = .exited := by
  obtain ⟨m, hm, htime | hstop⟩ := hfair.exists_le_time n (latest cfg cfg.numProcesses + 1)
  · have hi : cfg.numProcesses ≤ (stateAt cfg as m).i := by
      have hsound := sound_stateAt hsize as m
      rcases Nat.eq_zero_or_pos cfg.numProcesses with h0 | hpos
      · omega
      · have harrived := @Sound.arrived _ _ _ ⟨cfg.numProcesses - 1, by omega⟩ hsound
        simp only [Nat.sub_add_cancel hpos] at harrived
        have hlast := harrived (by omega)
        omega
    obtain ⟨k, hk, hld⟩ := (helps_leave cfg).eventually_after
      (fun _ _ _ => hfair.party .ld) ⟨alive_stateAt as m, hi⟩
    exact ⟨k, hm.trans hk, hld⟩
  · exact ⟨m, hm, hstop.1⟩

/-- **Every process is run to its end.** Let no program be empty, and let the processes fit the
scheduler. In every run that gives the timer, the loader and every CPU turns again and again, and in
which the loader does not set `done` while a process waits and every CPU has found none and is to
look at `done`: from some turn on the loader has left, and the instructions executed of each process
are its text. -/
theorem eventually_executed (cfg : Config ι) (hfits : cfg.Fits) (hsize : ∀ p, 0 < cfg.size p)
    (as : ℕ → OsTurn cfg) (hfair : Fair as) (hatt : ∀ n, Attended (stateAt cfg as n) (as n)) :
    ∃ n, ∀ m, n ≤ m →
      (stateAt cfg as m).ld = .exited ∧ ∀ p, executed (stateAt cfg as m) p = cfg.text p := by
  obtain ⟨n, -, hld⟩ := hfair.exists_exited hsize 0
  obtain ⟨k, hk, hlate⟩ := hfair.exists_le_time n
    (latest cfg cfg.numProcesses + 2 + (cfg.numCpus + 1) * ∑ q, cfg.size q)
  have hexited := exited_mono hld hk
  have hcomplete : Complete (stateAt cfg as k) := by
    refine ⟨hexited, finished_of_late hfits hsize hatt ?_ hlate⟩
    exact (sound_stateAt hsize as k).ending.done_iff.mpr (.inr hexited)
  refine ⟨k, ?_⟩
  intro m hm
  have hlater := hcomplete.mono hsize hm
  exact ⟨hlater.ld, fun p =>
    (sound_stateAt hsize as m).inv.executed_eq_text (hlater.pc_eq p).ge⟩

/-- The loader goes through its list at once, and then all take turns. -/
def loaderFirst : ℕ → OsTurn oneProcess := fun n => if n < 5 then .ld else everyTurn oneProcess n

theorem recurs_loaderFirst {a : OsTurn oneProcess} (h : Recurs (everyTurn oneProcess) a) :
    Recurs loaderFirst a := by
  intro n
  obtain ⟨m, hm, ha⟩ := h (n + 5)
  exact ⟨m, by omega, by rw [loaderFirst, if_neg (by omega), ha]⟩

theorem fair_loaderFirst : Fair loaderFirst where
  timer := recurs_loaderFirst (fair_everyTurn oneProcess).timer
  party := fun d => recurs_loaderFirst ((fair_everyTurn oneProcess).party d)

/-- The CPUs have not asked for a process when the loader sets `done`. -/
theorem attended_loaderFirst (n : ℕ) :
    Attended (stateAt oneProcess loaderFirst n) (loaderFirst n) := by
  intro _ hhead _ hun
  by_cases hn : n < 5
  · have htop : ∀ n < 5, ((stateAt oneProcess loaderFirst n).cpu ⟨0, Nat.two_pos⟩).loc = .top := by
      decide +kernel
    have htest := (hun.2 ⟨0, Nat.two_pos⟩).1
    rw [htop n hn] at htest
    cases htest
  · have hexited : (stateAt oneProcess loaderFirst 5).ld = .exited := by decide +kernel
    rw [exited_mono hexited (not_lt.mp hn)] at hhead
    cases hhead

theorem eventually_executed_loaderFirst :
    ∃ n, ∀ m, n ≤ m → (stateAt oneProcess loaderFirst m).ld = .exited ∧
      ∀ p, executed (stateAt oneProcess loaderFirst m) p = oneProcess.text p :=
  eventually_executed oneProcess ⟨by decide, by decide⟩ (fun _ => Nat.one_pos) loaderFirst
    fair_loaderFirst attended_loaderFirst

end Ossim.Simulator
