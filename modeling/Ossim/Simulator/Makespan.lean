import Ossim.Simulator.NoIdling

/-!
# When a process is done

In a slot that begins when the loader has handed in no process in the one before, either every
CPU runs an instruction, or every process that has arrived and has not finished has one run of it
(`noIdling`). So the CPUs together are a list scheduler, and a process has been run by the time
such a scheduler takes (`makespan`).
-/

namespace Ossim.Simulator

open Machine Sched

variable {ι : Type*} {cfg : Config ι}

/-! ### All that has been proved of a run -/

/-- The invariants of the simulator, for processes that have instructions. -/
structure Sound (s : OsState cfg) : Prop where
  /-- Every process is in one place. -/
  inv : Inv s
  /-- The timer is in step. -/
  inStep : InStep s
  /-- The loader is on time. -/
  onTime : OnTime s
  /-- No process runs twice in a slot. -/
  spaced : Spaced s
  /-- CPUs and loader leave as they should. -/
  ending : Ending s
  /-- What a CPU is to run has not finished. -/
  supplied : Supplied s
  /-- A CPU that finds no process leaves none waiting. -/
  tight : Tight s
  /-- A CPU that has left has begun no slot that is still to come. -/
  parked : ∀ c, (s.cpu c).loc = .exited → begun s c ≤ s.clock.time

variable {s s' : OsState cfg} {c : Fin cfg.numCpus} {p : cfg.Proc} {a : OsTurn cfg}

/-- A turn begins a slot for a CPU that was outside `next_slot`, or none. -/
theorem begun_cases (hinv : Inv s) (hs : step (osClock cfg) a s = some s') (c : Fin cfg.numCpus) :
    begun s' c = begun s c ∨ ((s.cpu c).loc.phase = .outside ∧ (s'.cpu c).loc ≠ .exited) := by
  by_cases ha : a = .cpu c
  · subst ha
    cases cpuTurn_of_cpuRoutine hs with
    | run p t hx =>
      left
      simp only [begun, setCpu, run]
      split_ifs <;> rfl
    | quiet k x hq =>
      rw [setCpu_self]
      generalize s.cpu c = y at hq
      generalize hk : s.clock = k₀ at hq
      have hbegun : begun (setCpu { s with clock := k } c x) c = (k.dev (.cpu c)).started := rfl
      rw [hbegun, begun, hk]
      cases hq with
      | idle _ _ _ | slot _ _ _ => exact .inr ⟨rfl, by simp⟩
      | wake _ _ h | begin _ _ h =>
        obtain ⟨-, -, hstarted, -⟩ := Timer.leave_spec h
        exact .inl hstarted
      | exit _ _ h =>
        obtain ⟨-, -, hstarted, -⟩ := Timer.detachEvent_spec h
        exact .inl hstarted
      | dispatch _ _ | stop _ _ | skip _ _ => exact .inl rfl
    | _ => exact .inl rfl
  · exact .inl (undisturbed hinv ha hs).begun_eq

/-- A CPU leaves from outside `next_slot`. -/
theorem exited_cases (hinv : Inv s) (hs : step (osClock cfg) a s = some s')
    (hc : (s'.cpu c).loc = .exited) : (s.cpu c).loc = .exited ∨ (s.cpu c).loc = .detach := by
  by_cases ha : a = .cpu c
  · subst ha
    have hfetch : ∀ l t, (l = .idle ∨ l = .recheck) → ((fetch c l t s).cpu c).loc ≠ .exited := by
      intro l t hl
      rw [fetch, setCpu_self]
      rcases hl with rfl | rfl <;> cases (getProc s.mlq).1 <;> simp
    cases cpuTurn_of_cpuRoutine hs with
    | load t hx => exact absurd hc (hfetch _ _ (.inl rfl))
    | replace q t hx => exact absurd hc (hfetch _ _ (.inr rfl))
    | rotate q t hx => exact absurd hc (hfetch _ _ (.inr rfl))
    | free q t hx hpc => simp [setCpu] at hc
    | put q t hx hpc ht => simp at hc
    | keep q t hx hpc ht => simp at hc
    | run q t hx => simp at hc
    | quiet k x hq =>
      rw [setCpu_self] at hc
      generalize s.cpu c = y at hq
      cases hq with
      | exit _ _ _ => exact .inr rfl
      | _ => simp at hc
  · rw [(undisturbed hinv ha hs).cpu_eq] at hc
    exact .inl hc

theorem sound_initial : Sound (initial cfg Timer.startTimer) where
  inv := inv_initial _
  inStep := inStep_initial
  onTime := onTime_initial
  spaced := spaced_initial
  ending := ending_initial _
  supplied := supplied_initial _
  tight := by
    rintro ⟨c, hc | ⟨hc, -⟩ | ⟨hc, -⟩⟩ <;> cases hc
  parked := nofun

theorem Sound.step (h : Sound s) (hsize : ∀ p, 0 < cfg.size p)
    (hs : step (osClock cfg) a s = some s') : Sound s' where
  inv := h.inv.step hs
  inStep := h.inStep.step hs
  onTime := h.onTime.step h.inStep hs
  spaced := h.spaced.step h.inv h.inStep hs
  ending := h.ending.step hs
  supplied := h.supplied.step hsize h.inv hs
  tight := h.tight.step h.inStep h.onTime hs
  parked := by
    intro c hc
    have hbegun := (begun_cases h.inv hs c).resolve_right fun hout => hout.2 hc
    rw [hbegun]
    refine le_trans ?_ (time_le hs)
    rcases exited_cases h.inv hs hc with hloc | hloc
    · exact h.parked c hloc
    · exact (h.inStep.time_eq (by rw [hloc]; rfl)).ge

theorem sound_after (hsize : ∀ p, 0 < cfg.size p) (as : List (OsTurn cfg)) :
    Sound (simulate cfg as) :=
  stutter_invariant (fun _ _ _ h hs => h.step hsize hs) as sound_initial

/-- A CPU that has not detached has begun this slot or the next one. -/
theorem InStep.begun_cases (h : InStep s) (hc : (s.cpu c).loc ≠ .exited) :
    begun s c = s.clock.time ∨ begun s c = s.clock.time + 1 := by
  refine (h.timer.calls ?_).1
  intro hdet
  have hphase := h.coupled c
  rw [Timer.Device.phase_eq_detached_iff.mpr hdet] at hphase
  exact hc (by revert hphase; cases (s.cpu c).loc <;> simp [CpuLoc.phase])

/-! ### Which processes have arrived -/

theorem latest_mono (cfg : Config ι) : Monotone (latest cfg) :=
  monotone_nat_of_le_succ (latest_le_succ cfg)

/-- The loader has handed in every process whose time came before this slot. -/
theorem Sound.arrived (h : Sound s) (hp : latest cfg (p + 1) < s.clock.time) : (p : ℕ) < s.i := by
  by_contra hle
  have hlt : s.i < cfg.numProcesses := (not_lt.mp hle).trans_lt p.isLt
  have hlatest : latest cfg (s.i + 1) < s.clock.time :=
    (latest_mono cfg (Nat.succ_le_succ (not_lt.mp hle))).trans_lt hp
  have hstarted : (s.clock.dev .ld).started ≤ latest cfg (s.i + 1) := by
    have hdue := h.onTime.due
    have hdone : ¬ (s.ld = .detach ∨ s.ld = .exited) := by
      intro hld
      exact h.ending.loaded (h.ending.done_iff.mpr hld) hlt
    generalize s.ld = l at hdue hdone
    cases l with
    | head => exact hdue.le.trans (latest_le_succ cfg s.i)
    | check => exact hdue.2
    | idleWait => exact hdue.2
    | idle => exact hdue.2.le
    | add => exact hdue.le
    | detach => exact absurd (.inl rfl) hdone
    | exited => exact absurd (.inr rfl) hdone
  have hloc : (s.clock.dev .ld).loc ≠ .detached := by
    intro hdet
    have hphase := h.onTime.coupled
    rw [Timer.Device.phase_eq_detached_iff.mpr hdet] at hphase
    have hld : s.ld = .exited := by
      revert hphase
      cases s.ld <;> simp [LdLoc.phase]
    exact h.ending.loaded (h.ending.done_iff.mpr (.inr hld)) hlt
  have hcalls := (h.inStep.timer.calls hloc).1
  omega

/-! ### What a slot comes to -/

/-- CPU `c` has run an instruction in slot `t`, or is to run one. -/
def Runs (s : OsState cfg) (t : ℕ) (c : Fin cfg.numCpus) : Prop :=
  Works Executed.cpu Executed.time s.log t c ∨ ∃ p, InSlot p (s.cpu c) ∧ begun s c = t

/-- An instruction of process `p` has been run in slot `t` or is to be run, or all have been run
before it. -/
def Settled (s : OsState cfg) (t : ℕ) (p : cfg.Proc) : Prop :=
  Served Executed.proc Executed.time s.log t p ∨ (∃ c, InSlot p (s.cpu c) ∧ begun s c = t) ∨
    (s.pc p = cfg.size p ∧ ∀ e ∈ s.log, e.proc = p → e.time < t)

/-- In a slot before which no process arrived, no CPU idles while a process waits. -/
def Greedy (s : OsState cfg) : Prop :=
  ∀ t, 0 < t → t ≤ s.clock.time → (∀ p : cfg.Proc, latest cfg (p + 1) + 1 ≠ t) →
    (∀ c, t ≤ begun s c → Runs s t c) ∨
      ∀ p : cfg.Proc, latest cfg (p + 1) + 1 < t → p ∉ s.dropped → Settled s t p

/-- What has been run stays in the log. -/
theorem log_subset (hs : step (osClock cfg) a s = some s') : s.log ⊆ s'.log := by
  intro e he
  rcases log_cases hs with hlog | ⟨c, p, ins, -, -, hlog⟩ <;> rw [hlog]
  · exact he
  · exact List.mem_append_left _ he

/-- What has been dropped stays so. -/
theorem dropped_subset (hs : step (osClock cfg) a s = some s') : s.dropped ⊆ s'.dropped := by
  have hdrop : ∀ p, s.dropped ⊆ drop p s := by
    intro p
    unfold drop
    split_ifs
    · exact List.Subset.refl _
    · exact List.subset_cons_self _ _
  rcases step_cases hs with ⟨c, -, hc⟩ | ⟨-, hld⟩ | ⟨i, k, -, -, rfl⟩
  · cases hc with
    | put p t hx hpc ht => exact hdrop p
    | run p t hx =>
      simp only [setCpu, run]
      split_ifs <;> exact List.Subset.refl _
    | _ => exact List.Subset.refl _
  · cases hld with
    | add hi hloc => exact hdrop _
    | _ => exact List.Subset.refl _
  · exact List.Subset.refl _

/-- A CPU that is to run a process in a slot still is, or has run it. -/
theorem Sound.inSlot_step (h : Sound s) (hs : Simulator.step (osClock cfg) a s = some s')
    (hp : InSlot p (s.cpu c)) :
    (InSlot p (s'.cpu c) ∧ begun s' c = begun s c) ∨
      ∃ e ∈ s'.log, e.cpu = c ∧ e.proc = p ∧ e.time = begun s c := by
  by_cases ha : a = .cpu c
  · subst ha
    obtain ⟨hproc, hloc⟩ := hp
    have hno : ∀ {l q t}, s.cpu c = ⟨l, q, t⟩ → l = .slotWait ∨ l = .run := by
      intro l q t hx
      rwa [hx] at hloc
    cases cpuTurn_of_cpuRoutine hs with
    | load t hx => simpa using hno hx
    | replace q t hx => simpa using hno hx
    | rotate q t hx => simpa using hno hx
    | free q t hx hpc => simpa using hno hx
    | put q t hx hpc ht => simpa using hno hx
    | keep q t hx hpc ht => simpa using hno hx
    | run q t hx =>
      right
      rw [hx] at hproc
      obtain rfl := Option.some.inj hproc
      have hlt : s.pc q < cfg.size q := by
        refine (h.supplied.cpus c).unfinished (.inl ?_) q ?_ <;> rw [hx]
        exact trivial
      have htime : (osClock cfg).currentTime s.clock = begun s c :=
        h.inStep.time_eq (by rw [hx]; rfl)
      simp only [setCpu, run, dif_neg (Nat.not_le.mpr hlt), htime]
      exact ⟨_, List.mem_append_right _ List.mem_cons_self, rfl, rfl, rfl⟩
    | quiet k x hq =>
      left
      rw [setCpu_self]
      have hbegun : begun (setCpu { s with clock := k } c x) c = (k.dev (.cpu c)).started := rfl
      rw [hbegun, begun]
      generalize s.cpu c = y at hq hproc hloc
      generalize s.clock = k₀ at hq
      cases hq with
      | begin q t hleave =>
        obtain ⟨-, -, hstarted, -⟩ := Timer.leave_spec hleave
        exact ⟨⟨hproc, .inr rfl⟩, hstarted⟩
      | _ => simp at hloc
  · obtain ⟨hcpu, -, hbegun⟩ := undisturbed h.inv ha hs
    exact .inl ⟨hcpu ▸ hp, hbegun⟩

/-- A process that has finished is not run again. -/
theorem Sound.finished_step (h : Sound s) (hs : Simulator.step (osClock cfg) a s = some s')
    (hp : s.pc p = cfg.size p) :
    s'.pc p = cfg.size p ∧ ∀ e ∈ s'.log, e.proc = p → e ∈ s.log := by
  have hsame : s'.pc = s.pc → s'.log = s.log →
      s'.pc p = cfg.size p ∧ ∀ e ∈ s'.log, e.proc = p → e ∈ s.log := by
    intro hpc hlog
    rw [hpc, hlog]
    exact ⟨hp, fun e he _ => he⟩
  rcases step_cases hs with ⟨c, -, hc⟩ | ⟨-, hld⟩ | ⟨i, k, -, -, rfl⟩
  · cases hc with
    | run q t hx =>
      have hlt : s.pc q < cfg.size q := by
        refine (h.supplied.cpus c).unfinished (.inl ?_) q ?_ <;> rw [hx]
        exact trivial
      have hne : p ≠ q := by
        rintro rfl
        omega
      simp only [setCpu, run, dif_neg (Nat.not_le.mpr hlt), Function.update_of_ne hne]
      refine ⟨hp, ?_⟩
      intro e he hep
      rcases List.mem_append.mp he with he | he
      · exact he
      · obtain rfl := List.mem_singleton.mp he
        exact absurd hep.symm hne
    | _ => exact hsame rfl rfl
  · cases hld with
    | load hi hloc =>
      refine hsame ?_ rfl
      show Function.update s.pc ⟨s.i, hi⟩ 0 = s.pc
      rw [← h.inv.pc_eq_zero ⟨s.i, hi⟩ le_rfl, Function.update_eq_self]
    | _ => exact hsame rfl rfl
  · exact hsame rfl rfl

theorem Sound.runs_step (h : Sound s) (hs : Simulator.step (osClock cfg) a s = some s') {t : ℕ}
    (hc : Runs s t c) : Runs s' t c := by
  rcases hc with ⟨e, he, hcpu, htime⟩ | ⟨p, hin, hbegun⟩
  · exact .inl ⟨e, log_subset hs he, hcpu, htime⟩
  · rcases h.inSlot_step hs hin with ⟨hin', hsame⟩ | ⟨e, he, hcpu, -, htime⟩
    · exact .inr ⟨p, hin', hsame.trans hbegun⟩
    · exact .inl ⟨e, he, hcpu, htime.trans hbegun⟩

theorem Sound.settled_step (h : Sound s) (hs : Simulator.step (osClock cfg) a s = some s') {t : ℕ}
    (hp : Settled s t p) : Settled s' t p := by
  rcases hp with ⟨e, he, hproc, htime⟩ | ⟨c, hin, hbegun⟩ | ⟨hpc, hlog⟩
  · exact .inl ⟨e, log_subset hs he, hproc, htime⟩
  · rcases h.inSlot_step hs hin with ⟨hin', hsame⟩ | ⟨e, he, -, hproc, htime⟩
    · exact .inr (.inl ⟨c, hin', hsame.trans hbegun⟩)
    · exact .inl ⟨e, he, hproc, htime.trans hbegun⟩
  · obtain ⟨hpc', hlog'⟩ := h.finished_step hs hpc
    exact .inr (.inr ⟨hpc', fun e he hep => hlog e (hlog' e he hep) hep⟩)

/-! ### When a slot begins -/

/-- When a slot is counted in which no CPU has found no process, every CPU that takes part has
one to run in it. -/
theorem Sound.runs_of_tick {k : Timer.State (Party cfg.numCpus)} (h : Sound s) (hk : Ticks s k)
    (hall : ¬ ∃ c, FoundNone s c) (hc : k.time ≤ begun s c) : Runs { s with clock := k } k.time c := by
  have htime := hk.time_eq
  have hloc : (s.cpu c).loc.phase ≠ .detached := by
    intro hdet
    have hexit : (s.cpu c).loc = .exited := by
      revert hdet
      cases (s.cpu c).loc <;> simp [CpuLoc.phase]
    have hle := h.parked c hexit
    omega
  obtain ⟨hin, hbegun⟩ := hk.arrived c hloc
  have hwait : (s.cpu c).loc = .slotWait := by
    have hnone : (s.cpu c).loc ≠ .idleWait := fun hidle => hall ⟨c, .inr (.inr ⟨hidle, hbegun⟩)⟩
    revert hin hnone
    cases (s.cpu c).loc <;> simp [CpuLoc.phase]
  obtain ⟨p, hp⟩ := Option.ne_none_iff_exists'.mp ((h.supplied.cpus c).bound (by rw [hwait]; trivial))
  refine .inr ⟨p, ⟨hp, .inl hwait⟩, ?_⟩
  rw [htime, ← hbegun]
  exact hk.dev c

/-- When a slot is counted, no CPU is outside `next_slot`. -/
theorem Ticks.requeued_eq {k : Timer.State (Party cfg.numCpus)} (hk : Ticks s k) :
    requeued s = 0 := by
  apply Finset.sum_eq_zero
  intro c _
  rw [if_neg]
  intro hloc
  have hin := (hk.arrived c (by rw [hloc]; exact nofun)).1
  rw [hloc] at hin
  cases hin

/-- When a slot is counted in which a CPU has found no process, and none has arrived, every process
there is has finished or is to be run. -/
theorem Sound.settled_of_tick {k : Timer.State (Party cfg.numCpus)} (h : Sound s) (hk : Ticks s k)
    (hnone : ∃ c, FoundNone s c) (hquiet : ∀ p : cfg.Proc, latest cfg (p + 1) + 1 ≠ k.time)
    (hp : latest cfg (p + 1) + 1 < k.time) (hdropped : p ∉ s.dropped) :
    Settled { s with clock := k } k.time p := by
  have htime := hk.time_eq
  have harriving : arriving s = 0 := by
    refine Finset.card_eq_zero.mpr (Finset.filter_eq_empty_iff.mpr ?_)
    rintro q - ⟨-, hq⟩
    exact hquiet q (by omega)
  have hqueue : queued s.mlq = 0 := by
    have htight := h.tight hnone
    rw [hk.requeued_eq, harriving] at htight
    exact Multiset.card_eq_zero.mp (Nat.le_zero.mp htight)
  have hpending : pending s p = 0 := by
    have harrived := h.arrived (p := p) (by omega)
    rw [pending, if_neg (by omega)]
  have hone := h.inv.copies_eq p
  rw [copies, hqueue, hpending, List.count_eq_zero_of_not_mem hdropped] at hone
  by_cases hfreed : p ∈ s.freed
  · refine .inr (.inr ⟨h.inv.finished p hfreed, ?_⟩)
    intro e he _
    have hpast := h.spaced.past e he
    show e.time < k.time
    omega
  · rw [List.count_eq_zero_of_not_mem hfreed] at hone
    have hholders : holders s p ≠ 0 := by
      intro h0
      rw [h0] at hone
      simp at hone
    obtain ⟨c, -, hc⟩ := Finset.exists_ne_zero_of_sum_ne_zero hholders
    have hheld : held (s.cpu c) = some p := by
      by_contra hne
      exact hc (if_neg hne)
    refine .inr (.inl ⟨c, ?_⟩)
    have hproc : (s.cpu c).proc = some p := by
      rw [held] at hheld
      split at hheld
      · cases hheld
      · cases hheld
      · exact hheld
    have hloc : (s.cpu c).loc.phase ≠ .detached := by
      intro hdet
      have hexit : (s.cpu c).loc = .exited := by
        revert hdet
        cases (s.cpu c).loc <;> simp [CpuLoc.phase]
      rw [(h.ending.left c (.inr hexit)).2] at hproc
      cases hproc
    obtain ⟨hin, hbegun⟩ := hk.arrived c hloc
    have hwait : (s.cpu c).loc = .slotWait := by
      have hne : (s.cpu c).loc ≠ .idleWait := by
        intro hidle
        rw [(h.supplied.cpus c).empty (by rw [hidle]; trivial)] at hproc
        cases hproc
      revert hin hne
      cases (s.cpu c).loc <;> simp [CpuLoc.phase]
    refine ⟨⟨hproc, .inl hwait⟩, ?_⟩
    rw [htime, ← hbegun]
    exact hk.dev c

/-- A turn begins no slot that is over already. -/
theorem Sound.le_begun (h : Sound s) (hs : Simulator.step (osClock cfg) a s = some s') {t : ℕ}
    (ht : t ≤ s.clock.time) (hc : t ≤ begun s' c) : t ≤ begun s c := by
  rcases begun_cases h.inv hs c with hsame | ⟨hout, -⟩
  · rwa [hsame] at hc
  · rwa [← h.inStep.time_eq hout]

theorem Greedy.step (hg : Greedy s) (h : Sound s) (hs : step (osClock cfg) a s = some s') :
    Greedy s' := by
  intro t hpos ht hquiet
  by_cases hold : t ≤ s.clock.time
  · -- a slot that has begun before
    rcases hg t hpos hold hquiet with hall | hall
    · exact .inl fun c hc => h.runs_step hs (hall c (h.le_begun hs hold hc))
    · exact .inr fun p hp hd => h.settled_step hs (hall p hp fun hmem => hd (dropped_subset hs hmem))
  · have hclock : ∃ i, a = .clock i := by
      by_contra hno
      rw [time_eq_of_thread hs fun i hi => hno ⟨i, hi⟩] at ht
      exact hold ht
    obtain ⟨i, rfl⟩ := hclock
    rcases step_cases hs with ⟨c, hc, -⟩ | ⟨hld, -⟩ | ⟨i, k, -, hk, rfl⟩
    · cases hc
    · cases hld
    · have hne : k.time ≠ s.clock.time := fun heq => hold (heq ▸ ht)
      have hticks := ticks_of_time_ne h.inStep hk hne
      have htime := hticks.time_eq
      obtain rfl : t = k.time := by
        show t = k.time
        have hle : t ≤ k.time := ht
        omega
      by_cases hnone : ∃ c, FoundNone s c
      · exact .inr fun p hp hd => h.settled_of_tick hticks hnone hquiet hp hd
      · refine .inl fun c hc => h.runs_of_tick hticks hnone ?_
        rw [← hticks.dev c]
        exact hc

theorem greedy_after (hsize : ∀ p, 0 < cfg.size p) (as : List (OsTurn cfg)) :
    Greedy (simulate cfg as) := by
  have h : Sound (simulate cfg as) ∧ Greedy (simulate cfg as) :=
    @stutter_invariant _ _ (step (osClock cfg)) (fun s => Sound s ∧ Greedy s)
      (fun _ _ _ h hs => ⟨h.1.step hsize hs, h.2.step h.1 hs⟩) as _
      ⟨sound_initial, fun t hpos ht => absurd hpos (not_lt.mpr ht)⟩
  exact h.2

/-! ### What the log says of the slots that are over -/

/-- Nobody is still to run a process in a slot that is over. -/
theorem Sound.not_inSlot (h : Sound s) {t : ℕ} (ht : t < s.clock.time) (hin : InSlot p (s.cpu c)) :
    begun s c ≠ t := by
  have hloc : (s.cpu c).loc ≠ .exited := by
    rcases hin.2 with hloc | hloc <;> rw [hloc] <;> exact nofun
  have hcases := h.inStep.begun_cases hloc
  omega

theorem Sound.works_of_runs (h : Sound s) {t : ℕ} (ht : t < s.clock.time) (hc : Runs s t c) :
    Works Executed.cpu Executed.time s.log t c := by
  rcases hc with hc | ⟨p, hin, hbegun⟩
  · exact hc
  · exact absurd hbegun (h.not_inSlot ht hin)

theorem Sound.served_of_settled (h : Sound s) {t : ℕ} (ht : t < s.clock.time)
    (hp : Settled s t p) : Served Executed.proc Executed.time s.log t p ∨
      (s.pc p = cfg.size p ∧ ∀ e ∈ s.log, e.proc = p → e.time < t) := by
  rcases hp with hp | ⟨c, hin, hbegun⟩ | hp
  · exact .inl hp
  · exact absurd hbegun (h.not_inSlot ht hin)
  · exact .inr hp

/-- **No CPU idles while a process waits.** Let no program be empty. In any run, take a slot that is
over, and in the slot before which no process arrived. Either every CPU that took part in it ran an
instruction in it, or every process that had arrived before it and has not been dropped had one run
in it, or had all its instructions run in earlier slots. -/
theorem noIdling (cfg : Config ι) (hsize : ∀ p, 0 < cfg.size p) (as : List (OsTurn cfg)) (t : ℕ)
    (hpos : 0 < t) (ht : t < (simulate cfg as).clock.time)
    (hquiet : ∀ p : cfg.Proc, latest cfg (p + 1) + 1 ≠ t) :
    (∀ c, t ≤ begun (simulate cfg as) c →
        ∃ e ∈ (simulate cfg as).log, e.cpu = c ∧ e.time = t) ∨
      ∀ p : cfg.Proc, latest cfg (p + 1) + 1 < t → p ∉ (simulate cfg as).dropped →
        (∃ e ∈ (simulate cfg as).log, e.proc = p ∧ e.time = t) ∨
          (executed (simulate cfg as) p = cfg.text p ∧
            ∀ e ∈ (simulate cfg as).log, e.proc = p → e.time < t) := by
  have hsound := sound_after hsize as
  rcases greedy_after hsize as t hpos ht.le hquiet with hall | hall
  · exact .inl fun c hc => hsound.works_of_runs ht (hall c hc)
  · refine .inr fun p hp hd => (hsound.served_of_settled ht (hall p hp hd)).imp_right ?_
    rintro ⟨hpc, hlog⟩
    refine ⟨?_, hlog⟩
    rw [hsound.inv.executed_eq, hpc, Config.size, List.take_length]

/-- Two CPUs, and three processes of two instructions. -/
def threeProcesses : Config Unit where
  timeSlot := 2
  numCpus := 2
  numProcesses := 3
  text := fun _ => [(), ()]
  prio := fun _ => 0
  startTime := fun _ => 0

/-- The loader hands in all of them. -/
def handInTurns : List (OsTurn threeProcesses) := List.replicate 12 .ld

/-- For `n` slots the CPUs go on to their next calls of `next_slot`, and the timer to the next
slot. -/
def slotTurns (n : ℕ) : List (OsTurn threeProcesses) :=
  (List.replicate n (List.replicate 6 (.cpu ⟨0, Nat.two_pos⟩) ++
    List.replicate 6 (.cpu ⟨1, Nat.one_lt_two⟩) ++ List.replicate 11 (.clock .timer))).flatten

/-- In slot `2` both CPUs are at work, and the third process waits. -/
theorem noIdling_threeProcesses :
    (∀ c, 2 ≤ begun (simulate threeProcesses (handInTurns ++ slotTurns 3)) c →
        ∃ e ∈ (simulate threeProcesses (handInTurns ++ slotTurns 3)).log,
          e.cpu = c ∧ e.time = 2) ∨
      ∀ p : threeProcesses.Proc, latest threeProcesses (p + 1) + 1 < 2 →
        p ∉ (simulate threeProcesses (handInTurns ++ slotTurns 3)).dropped →
        (∃ e ∈ (simulate threeProcesses (handInTurns ++ slotTurns 3)).log,
          e.proc = p ∧ e.time = 2) ∨
          (executed (simulate threeProcesses (handInTurns ++ slotTurns 3)) p =
              threeProcesses.text p ∧
            ∀ e ∈ (simulate threeProcesses (handInTurns ++ slotTurns 3)).log,
              e.proc = p → e.time < 2) :=
  noIdling threeProcesses (fun _ => Nat.two_pos) (handInTurns ++ slotTurns 3) 2 Nat.two_pos
    (by decide +kernel) (by decide +kernel)

/-! ### How long it takes -/

/-- The CPUs that take part in this slot. -/
def active (s : OsState cfg) : Finset (Fin cfg.numCpus) :=
  Finset.univ.filter fun c => s.clock.time ≤ begun s c

/-- How many instructions of a process have been run. -/
theorem Inv.countP_eq (h : Inv s) (p : cfg.Proc) : (s.log.countP fun e => e.proc = p) = s.pc p := by
  have hlen : (executed s p).length = s.log.countP fun e => e.proc = p := by
    unfold executed
    induction s.log with
    | nil => rfl
    | cons e log ih =>
      by_cases he : e.proc = p
      · simp [he, ih]
      · simp [he, ih]
  rw [← hlen, h.executed_eq, List.length_take]
  exact min_eq_left (h.pc_le p)

/-- How many have been run of all processes. -/
theorem Inv.length_log (h : Inv s) : s.log.length = ∑ p, s.pc p := by
  have hsum := @Multiset.sum_count_eq_card _ _ Finset.univ (Multiset.ofList (s.log.map Executed.proc))
    fun p _ => Finset.mem_univ p
  rw [Multiset.coe_card, List.length_map] at hsum
  rw [← hsum]
  refine Finset.sum_congr rfl fun p _ => ?_
  rw [Multiset.coe_count, List.count, List.countP_map, ← h.countP_eq p]
  refine List.countP_congr fun e _ => ?_
  simp

/-- A process that has not been run to its end has not had its slots. -/
theorem Sound.slots_lt (h : Sound s) (hg : Greedy s) (hdropped : p ∉ s.dropped)
    (hlt : s.pc p < cfg.size p) :
    (active s).card * (s.clock.time - (latest cfg cfg.numProcesses + 2)) <
      ∑ q, cfg.size q + ((active s).card - 1) * cfg.size p := by
  -- in each slot all the CPUs that are still there ran something, or one of them ran `p`
  have hslots : ∀ t ∈ Finset.Ioo (latest cfg cfg.numProcesses + 1) s.clock.time,
      (∀ c ∈ active s, Works Executed.cpu Executed.time s.log t c) ∨
        Served Executed.proc Executed.time s.log t p := by
    intro t ht
    obtain ⟨hfirst, hlast⟩ := Finset.mem_Ioo.mp ht
    have hlatest : ∀ q : cfg.Proc, latest cfg (q + 1) + 1 < t := fun q =>
      (Nat.succ_le_succ (latest_mono cfg q.isLt)).trans_lt hfirst
    rcases hg t (by omega) hlast.le (fun q => (hlatest q).ne) with hall | hall
    · left
      intro c hc
      have hbegun := (Finset.mem_filter.mp hc).2
      exact h.works_of_runs hlast (hall c (hlast.le.trans hbegun))
    · right
      rcases h.served_of_settled hlast (hall p (hlatest p) hdropped) with hp | ⟨hpc, -⟩
      · exact hp
      · exact absurd hpc hlt.ne
  have hbound := card_mul_card_le hslots
  rw [Nat.card_Ioo, h.inv.length_log, h.inv.countP_eq] at hbound
  have hwork : ∑ q, s.pc q < ∑ q, cfg.size q :=
    Finset.sum_lt_sum (fun q _ => h.inv.pc_le q) ⟨p, Finset.mem_univ p, hlt⟩
  have hrest : ((active s).card - 1) * s.pc p ≤ ((active s).card - 1) * cfg.size p :=
    Nat.mul_le_mul_left _ hlt.le
  have hspan : s.clock.time - (latest cfg cfg.numProcesses + 1) - 1 =
      s.clock.time - (latest cfg cfg.numProcesses + 2) := by omega
  rw [hspan] at hbound
  omega

theorem Inv.executed_eq_text (h : Inv s) (hp : cfg.size p ≤ s.pc p) : executed s p = cfg.text p := by
  rw [h.executed_eq]
  exact List.take_of_length_le hp

/-- **When a process is done.** Let no program be empty. In any run, after the slot that follows the
last arrival, let the CPUs that take part in the present slot have had, between them, as many slots
as all processes have instructions, and all but one of them again as many as process `p` has. Then
`p` has been run to its end, if it has not been dropped. -/
theorem makespan (cfg : Config ι) (hsize : ∀ p, 0 < cfg.size p) (as : List (OsTurn cfg))
    (p : cfg.Proc) (hdropped : p ∉ (simulate cfg as).dropped)
    (htime : ∑ q, cfg.size q + ((active (simulate cfg as)).card - 1) * cfg.size p ≤
      (active (simulate cfg as)).card *
        ((simulate cfg as).clock.time - (latest cfg cfg.numProcesses + 2))) :
    executed (simulate cfg as) p = cfg.text p := by
  have hsound := sound_after hsize as
  apply hsound.inv.executed_eq_text
  by_contra hlt
  have hslots := hsound.slots_lt (greedy_after hsize as) hdropped (not_le.mp hlt)
  omega

/-- Three CPUs, a process of two instructions and one of one. -/
def threeCpus : Config Unit where
  timeSlot := 2
  numCpus := 3
  numProcesses := 2
  text := fun p => List.replicate (2 - p) ()
  prio := fun _ => 0
  startTime := fun _ => 0

/-- Turns of the CPUs, so many of each. -/
def cpuTurns (n₀ n₁ n₂ : ℕ) : List (OsTurn threeCpus) :=
  List.replicate n₀ (.cpu ⟨0, Nat.succ_pos 2⟩) ++
    List.replicate n₁ (.cpu ⟨1, Nat.one_lt_succ_succ 1⟩) ++
    List.replicate n₂ (.cpu ⟨2, Nat.lt_succ_self 2⟩)

/-- CPUs `1` and `2` ask for a process before there is one. Then the loader hands in both; CPU `0`
takes the first one, and CPU `1` comes for the second one in the next slot, the first of `n`. -/
def waitTurns (n : ℕ) : List (OsTurn threeCpus) :=
  cpuTurns 0 2 2 ++ List.replicate 9 .ld ++ cpuTurns 3 0 0 ++ List.replicate 11 (.clock .timer) ++
    (List.replicate n (cpuTurns 7 7 3 ++ List.replicate 11 (.clock .timer))).flatten

/-- Five slots are enough for the process that had to wait, when CPU `2` alone is left. -/
theorem makespan_threeCpus :
    executed (simulate threeCpus (waitTurns 4)) ⟨1, Nat.one_lt_two⟩ =
      threeCpus.text ⟨1, Nat.one_lt_two⟩ := by
  have h : ⟨1, Nat.one_lt_two⟩ ∉ (simulate threeCpus (waitTurns 4)).dropped ∧
      ∑ q, threeCpus.size q +
          ((active (simulate threeCpus (waitTurns 4))).card - 1) *
            threeCpus.size ⟨1, Nat.one_lt_two⟩ ≤
        (active (simulate threeCpus (waitTurns 4))).card *
          ((simulate threeCpus (waitTurns 4)).clock.time -
            (latest threeCpus threeCpus.numProcesses + 2)) := by
    decide +kernel
  exact makespan threeCpus (by decide) (waitTurns 4) ⟨1, Nat.one_lt_two⟩ h.1 h.2

end Ossim.Simulator
