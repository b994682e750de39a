import Ossim.Simulator.Ownership
import Ossim.Timer.Devices
import Ossim.Timer.LockStep

/-!
# The CPUs and their devices

With the timer of `timer.c`, where a CPU is in `cpu_routine` says where its device is: inside
`next_slot`, past `detach_event`, or outside both (`InStep.coupled`). So while a CPU is outside
`next_slot` the time is the number of slots it has begun (`InStep.time_eq`), and no turn of
another thread changes this number, nor the process the CPU holds (`undisturbed`).
-/

namespace Ossim.Simulator

open Sched

variable {ι : Type*} {cfg : Config ι}

/-- The state of the simulator with its timer. -/
abbrev OsState (cfg : Config ι) : Type _ := State cfg (Timer.State (Party cfg.numCpus))

/-- The turns of the simulator with its timer. -/
abbrev OsTurn (cfg : Config ι) : Type := Turn cfg.numCpus (Timer.Internal (Party cfg.numCpus))

/-- Where the device of a CPU is. -/
def CpuLoc.phase : CpuLoc → Timer.Phase
  | .idleWait | .slotWait => .inside
  | .exited => .detached
  | _ => .outside

/-- How many slots CPU `c` has begun. -/
def begun (s : OsState cfg) (c : Fin cfg.numCpus) : ℕ := (s.clock.dev (.cpu c)).started

/-- The timer is in step with the CPUs. -/
structure InStep (s : OsState cfg) : Prop where
  /-- The timer keeps its devices in step. -/
  timer : Timer.Inv s.clock
  /-- The device of a CPU is where the CPU is. -/
  coupled : ∀ c, (s.clock.dev (.cpu c)).phase = (s.cpu c).loc.phase

theorem inStep_initial : InStep (initial cfg Timer.startTimer) where
  timer := Timer.inv_startTimer
  coupled := fun _ => rfl

variable {s s' : OsState cfg} {c : Fin cfg.numCpus}

/-- Outside `next_slot` the time is the number of slots begun. -/
theorem InStep.time_eq (h : InStep s) (hc : (s.cpu c).loc.phase = .outside) :
    s.clock.time = begun s c := by
  have hloc := Timer.Device.phase_eq_outside_iff.mp ((h.coupled c).trans hc)
  obtain ⟨-, -, -, hstarted, -⟩ := h.timer.working_of_loc hloc
  exact hstarted.symm

/-! ### The device of a thread is its own -/

theorem Quiet.clock_eq {done : Bool} {k k' : Timer.State (Party cfg.numCpus)}
    {x x' : Cpu cfg.Proc} (h : Quiet (osClock cfg) c done k x k' x') :
    (∀ e, e ≠ .cpu c → k'.dev e = k.dev e) ∧ k'.time = k.time := by
  cases h with
  | dispatch _ _ | stop _ _ | skip _ _ => exact ⟨fun _ _ => rfl, rfl⟩
  | idle _ _ h | slot _ _ h =>
    obtain ⟨-, -, -, hrest, htime, -⟩ := Timer.nextSlot_spec h
    exact ⟨hrest, htime⟩
  | wake _ _ h | begin _ _ h =>
    obtain ⟨-, -, -, hrest, htime, -⟩ := Timer.leave_spec h
    exact ⟨hrest, htime⟩
  | exit _ _ h =>
    obtain ⟨-, -, -, hrest, htime, -⟩ := Timer.detachEvent_spec h
    exact ⟨hrest, htime⟩

/-- A CPU and its device move together. -/
theorem Quiet.inStep {done : Bool} {k k' : Timer.State (Party cfg.numCpus)}
    {x x' : Cpu cfg.Proc} (h : Quiet (osClock cfg) c done k x k' x') (hk : Timer.Inv k)
    (hphase : (k.dev (.cpu c)).phase = x.loc.phase) :
    Timer.Inv k' ∧ (k'.dev (.cpu c)).phase = x'.loc.phase := by
  cases h with
  | dispatch _ _ | stop _ _ | skip _ _ => exact ⟨hk, hphase⟩
  | idle _ _ h | slot _ _ h =>
    obtain ⟨-, hin, -⟩ := Timer.nextSlot_spec h
    exact ⟨hk.nextSlot h, hin⟩
  | wake _ _ h | begin _ _ h =>
    obtain ⟨-, hout, -⟩ := Timer.leave_spec h
    exact ⟨hk.leave h, hout⟩
  | exit _ _ h =>
    obtain ⟨-, hdetached, -⟩ := Timer.detachEvent_spec h
    exact ⟨hk.detachEvent h, hdetached⟩

theorem LdQuiet.clock_eq {k k' : Timer.State (Party cfg.numCpus)} {l l' : LdLoc}
    (h : LdQuiet (osClock cfg) k l k' l') :
    (∀ e, e ≠ .ld → k'.dev e = k.dev e) ∧ k'.time = k.time := by
  cases h with
  | idle h =>
    obtain ⟨-, -, -, hrest, htime, -⟩ := Timer.nextSlot_spec h
    exact ⟨hrest, htime⟩
  | wake h =>
    obtain ⟨-, -, -, hrest, htime, -⟩ := Timer.leave_spec h
    exact ⟨hrest, htime⟩
  | exit h =>
    obtain ⟨-, -, -, hrest, htime, -⟩ := Timer.detachEvent_spec h
    exact ⟨hrest, htime⟩

/-! ### Every turn -/

/-- A CPU that moves without the timer stays outside. -/
theorem InStep.setCpu (h : InStep s) (x : Cpu cfg.Proc)
    (hx : x.loc.phase = (s.cpu c).loc.phase) : InStep (setCpu s c x) where
  timer := h.timer
  coupled := by
    intro c'
    by_cases hc : c' = c
    · subst hc
      rw [setCpu_self, hx]
      exact h.coupled c'
    · rw [setCpu_of_ne s x hc]
      exact h.coupled c'

/-- A CPU that moves with the timer. -/
theorem InStep.setClock (h : InStep s) {k : Timer.State (Party cfg.numCpus)} (hk : Timer.Inv k)
    {x : Cpu cfg.Proc} (hx : (k.dev (.cpu c)).phase = x.loc.phase)
    (hrest : ∀ e, e ≠ .cpu c → k.dev e = s.clock.dev e) :
    InStep (Simulator.setCpu { s with clock := k } c x) where
  timer := hk
  coupled := by
    intro c'
    by_cases hc : c' = c
    · subst hc
      rw [setCpu_self]
      exact hx
    · rw [setCpu_of_ne _ x hc]
      show ((k.dev (.cpu c')).phase = (s.cpu c').loc.phase)
      rw [hrest (.cpu c') (fun he => hc (Party.cpu.inj he))]
      exact h.coupled c'

theorem InStep.cpuTurn (h : InStep s) (hs : CpuTurn (osClock cfg) c s s') : InStep s' := by
  have hfetch : ∀ l t, (s.cpu c).loc.phase = .outside → (l = .idle ∨ l = .recheck) →
      InStep (fetch c l t s) := by
    intro l t hout hl
    have hphase : (if (getProc s.mlq).1.isNone then l else .recheck : CpuLoc).phase = .outside := by
      rcases hl with rfl | rfl <;> split_ifs <;> rfl
    exact @InStep.setCpu _ _ { s with mlq := (getProc s.mlq).2 } c ⟨h.timer, h.coupled⟩ _
      (hphase.trans hout.symm)
  cases hs with
  | load t hx => exact hfetch _ _ (by rw [hx]; rfl) (.inl rfl)
  | replace p t hx => exact hfetch _ _ (by rw [hx]; rfl) (.inr rfl)
  | rotate p t hx => exact hfetch _ _ (by rw [hx]; rfl) (.inr rfl)
  | free p t hx hpc =>
    have hset := h.setCpu (c := c) ⟨.reaped, some p, t⟩ (by rw [hx]; rfl)
    exact ⟨hset.timer, hset.coupled⟩
  | put p t hx hpc ht =>
    exact @InStep.setCpu _ _ (putBack p s) c ⟨h.timer, h.coupled⟩ _
      (show _ = (s.cpu c).loc.phase by rw [hx]; rfl)
  | keep p t hx hpc ht => exact h.setCpu _ (by rw [hx]; rfl)
  | run p t hx =>
    have hrun : InStep (run (osClock cfg) c p s) := by
      unfold run
      split_ifs
      · exact h
      · exact ⟨h.timer, h.coupled⟩
    refine hrun.setCpu _ ?_
    rw [run_cpu, hx]
    rfl
  | quiet k x hq =>
    obtain ⟨htimer, hphase⟩ := hq.inStep h.timer (h.coupled c)
    exact h.setClock htimer hphase hq.clock_eq.1

/-- A turn that leaves the CPUs and their devices where they are. -/
theorem InStep.of_frame (h : InStep s) (htimer : Timer.Inv s'.clock) (hcpu : s'.cpu = s.cpu)
    (hdev : ∀ c, (s'.clock.dev (.cpu c)).phase = (s.clock.dev (.cpu c)).phase) : InStep s' where
  timer := htimer
  coupled := by
    intro c
    rw [hdev, hcpu]
    exact h.coupled c

theorem InStep.ldTurn (h : InStep s) (hs : LdTurn (osClock cfg) s s') : InStep s' := by
  cases hs with
  | load hi hloc => exact h.of_frame h.timer rfl fun _ => rfl
  | store hi hloc => exact h.of_frame h.timer rfl fun _ => rfl
  | look hi hloc => exact h.of_frame h.timer rfl fun _ => rfl
  | add hi hloc => exact h.of_frame h.timer rfl fun _ => rfl
  | quiet k l hq =>
    apply h.of_frame
    · generalize s.ld = l₀ at hq
      cases hq with
      | idle hnext => exact h.timer.nextSlot hnext
      | wake hleave => exact h.timer.leave hleave
      | exit hdetach => exact h.timer.detachEvent hdetach
    · rfl
    · -- the loader's calls concern its own device
      intro c
      rw [hq.clock_eq.1 (.cpu c) nofun]

theorem InStep.step {a : OsTurn cfg} (h : InStep s) (hs : step (osClock cfg) a s = some s') :
    InStep s' := by
  rcases step_cases hs with ⟨c, -, hc⟩ | ⟨-, hld⟩ | ⟨i, k, -, hk, rfl⟩
  · exact h.cpuTurn hc
  · exact h.ldTurn hld
  · obtain ⟨hdev, -, -⟩ := Timer.internal_spec hk
    exact h.of_frame (h.timer.internal hk) rfl fun c => (hdev (.cpu c)).1

/-- The timer is in step with the CPUs in every state reached. -/
theorem inStep_after (as : List (OsTurn cfg)) : InStep (simulate cfg as) :=
  Machine.stutter_invariant (fun _ _ _ h hs => h.step hs) as inStep_initial

/-! ### Nobody else's business -/

/-- What CPU `c` has of its own is the same in two states. -/
structure SameFor (c : Fin cfg.numCpus) (s s' : OsState cfg) : Prop where
  /-- The CPU is where it was. -/
  cpu_eq : s'.cpu c = s.cpu c
  /-- So is the process it holds. -/
  pc_eq : ∀ p, held (s.cpu c) = some p → s'.pc p = s.pc p
  /-- The CPU has begun no slot. -/
  begun_eq : begun s' c = begun s c

theorem SameFor.setCpu {c' : Fin cfg.numCpus} (h : SameFor c s s') (hc : c ≠ c')
    (x : Cpu cfg.Proc) : SameFor c s (Simulator.setCpu s' c' x) where
  cpu_eq := (setCpu_of_ne s' x hc).trans h.cpu_eq
  pc_eq := h.pc_eq
  begun_eq := h.begun_eq

/-- A turn of one CPU does nothing to another, or to the process that holds. -/
theorem CpuTurn.sameFor {c' : Fin cfg.numCpus} (h : Inv s) (hne : c ≠ c')
    (hs : CpuTurn (osClock cfg) c' s s') : SameFor c s s' := by
  have hself : SameFor c s s := ⟨rfl, fun _ _ => rfl, rfl⟩
  have hfetch : SameFor c s { s with mlq := (getProc s.mlq).2 } := ⟨rfl, fun _ _ => rfl, rfl⟩
  cases hs with
  | load t hx => exact hfetch.setCpu hne _
  | replace q t hx => exact hfetch.setCpu hne _
  | rotate q t hx => exact hfetch.setCpu hne _
  | free q t hx hpc =>
    have hset := hself.setCpu hne ⟨.reaped, some q, t⟩
    exact ⟨hset.cpu_eq, hset.pc_eq, hset.begun_eq⟩
  | put q t hx hpc ht =>
    have hput : SameFor c s (putBack q s) := ⟨rfl, fun _ _ => rfl, rfl⟩
    exact hput.setCpu hne _
  | keep q t hx hpc ht => exact hself.setCpu hne _
  | run q t hx =>
    refine SameFor.setCpu ?_ hne _
    unfold Simulator.run
    split_ifs
    · exact hself
    · refine ⟨rfl, fun p hheld => Function.update_of_ne ?_ _ _, rfl⟩
      -- the process that runs is the other CPU's
      rintro rfl
      exact hne (h.holder_eq (by rw [hx]; rfl) hheld)
  | quiet k x hq =>
    have hk : SameFor c s { s with clock := k } := by
      refine ⟨rfl, fun _ _ => rfl, ?_⟩
      rw [begun, begun, hq.clock_eq.1 (.cpu c) fun he => hne (Party.cpu.inj he)]
    exact hk.setCpu hne x

/-- A turn of the loader does nothing to a CPU, or to the process it holds. -/
theorem LdTurn.sameFor (h : Inv s) (hs : LdTurn (osClock cfg) s s') : SameFor c s s' := by
  cases hs with
  | load hi hloc =>
    refine ⟨rfl, fun p hheld => Function.update_of_ne ?_ _ _, rfl⟩
    -- the process the CPU holds has been loaded before
    rintro rfl
    exact (h.of_held hheld).2 le_rfl
  | store hi hloc => exact ⟨rfl, fun _ _ => rfl, rfl⟩
  | look hi hloc => exact ⟨rfl, fun _ _ => rfl, rfl⟩
  | add hi hloc => exact ⟨rfl, fun _ _ => rfl, rfl⟩
  | quiet k l hq =>
    refine ⟨rfl, fun _ _ => rfl, ?_⟩
    rw [begun, begun, hq.clock_eq.1 (.cpu c) nofun]

/-- A turn of another thread does nothing to CPU `c` or to the process it holds. -/
theorem undisturbed {a : OsTurn cfg} (h : Inv s) (ha : a ≠ .cpu c)
    (hs : step (osClock cfg) a s = some s') : SameFor c s s' := by
  rcases step_cases hs with ⟨c', rfl, hc⟩ | ⟨-, hld⟩ | ⟨i, k, -, hk, rfl⟩
  · exact hc.sameFor h fun hcc => ha (congrArg Turn.cpu hcc.symm)
  · exact hld.sameFor h
  · obtain ⟨hdev, -, -⟩ := Timer.internal_spec hk
    exact ⟨rfl, fun _ _ => rfl, (hdev (.cpu c)).2⟩

/-- Time does not go back, and no thread but the timer moves it. -/
theorem time_le {a : OsTurn cfg} (hs : step (osClock cfg) a s = some s') :
    s.clock.time ≤ s'.clock.time := by
  rcases step_cases hs with ⟨c, -, hc⟩ | ⟨-, hld⟩ | ⟨i, k, -, hk, rfl⟩
  · cases hc with
    | run p t hx =>
      simp only [setCpu, run]
      split_ifs <;> exact le_rfl
    | quiet k x hq => exact hq.clock_eq.2.ge
    | _ => exact le_rfl
  · cases hld with
    | quiet k l hq => exact hq.clock_eq.2.ge
    | _ => exact le_rfl
  · obtain ⟨-, htime, -⟩ := Timer.internal_spec hk
    exact htime

/-- The turn of a thread does not move it. -/
theorem time_eq_of_thread {a : OsTurn cfg} (hs : step (osClock cfg) a s = some s')
    (ha : ∀ i, a ≠ .clock i) : s'.clock.time = s.clock.time := by
  rcases step_cases hs with ⟨c, -, hc⟩ | ⟨-, hld⟩ | ⟨i, k, rfl, -, -⟩
  · cases hc with
    | run p t hx =>
      simp only [setCpu, run]
      split_ifs <;> rfl
    | quiet k x hq => exact hq.clock_eq.2
    | _ => rfl
  · cases hld with
    | quiet k l hq => exact hq.clock_eq.2
    | _ => rfl
  · exact absurd rfl (ha i)

/-! ### One instruction of a process in a slot -/

/-- A CPU that is to run process `p` in the slot it has begun. -/
def InSlot (p : cfg.Proc) (x : Cpu cfg.Proc) : Prop :=
  x.proc = some p ∧ (x.loc = .slotWait ∨ x.loc = .run)

theorem InSlot.held_eq {p : cfg.Proc} {x : Cpu cfg.Proc} (h : InSlot p x) : held x = some p := by
  obtain ⟨l, q, t⟩ := x
  obtain ⟨rfl, rfl | rfl⟩ := h <;> rfl

/-- The instructions run of a process are a slot or more apart. -/
structure Spaced (s : OsState cfg) : Prop where
  /-- Each is run in a later slot than the one before. -/
  spaced : s.log.Pairwise fun e e' => e.proc = e'.proc → e.time < e'.time
  /-- None has been run in the future. -/
  past : ∀ e ∈ s.log, e.time ≤ s.clock.time
  /-- A CPU runs its process in a slot in which it has not been run. -/
  fresh : ∀ c p, InSlot p (s.cpu c) → ∀ e ∈ s.log, e.proc = p → e.time < begun s c

theorem spaced_initial : Spaced (initial cfg Timer.startTimer) where
  spaced := .nil
  past := nofun
  fresh := nofun

/-- How the CPU whose turn it is may come to be in a slot: it was, or enters one. -/
theorem inSlot_of_cpuTurn {p : cfg.Proc} (h : CpuTurn (osClock cfg) c s s')
    (hin : InSlot p (s'.cpu c)) :
    s'.log = s.log ∧ (InSlot p (s.cpu c) ∧ begun s' c = begun s c ∨
      (s.cpu c).loc.phase = .outside ∧ begun s' c = begun s c + 1) := by
  have hfetch : ∀ l t, (l = .idle ∨ l = .recheck) → ¬ InSlot p ((fetch c l t s).cpu c) := by
    rintro l t hl ⟨-, hloc⟩
    rw [fetch, setCpu_self] at hloc
    rcases hl with rfl | rfl <;> cases hget : (getProc s.mlq).1 <;> simp [hget] at hloc
  cases h with
  | load t hx => exact absurd hin (hfetch _ _ (.inl rfl))
  | replace q t hx => exact absurd hin (hfetch _ _ (.inr rfl))
  | rotate q t hx => exact absurd hin (hfetch _ _ (.inr rfl))
  | free q t hx hpc => simp [InSlot, setCpu] at hin
  | put q t hx hpc ht => simp [InSlot] at hin
  | keep q t hx hpc ht => simp [InSlot] at hin
  | run q t hx => simp [InSlot] at hin
  | quiet k x hq =>
    rw [setCpu_self] at hin
    refine ⟨rfl, ?_⟩
    generalize s.cpu c = y at hq
    generalize hk : s.clock = k₀ at hq
    cases hq with
    | slot _ _ hnext =>
      subst hk
      obtain ⟨-, -, hstarted, -⟩ := Timer.nextSlot_spec hnext
      exact .inr ⟨rfl, hstarted⟩
    | begin _ _ hleave =>
      subst hk
      obtain ⟨-, -, hstarted, -⟩ := Timer.leave_spec hleave
      exact .inl ⟨⟨hin.1, .inl rfl⟩, hstarted⟩
    | _ => simp [InSlot] at hin

/-- A turn that runs nothing. -/
theorem Spaced.of_log_eq {a : OsTurn cfg} (h : Spaced s) (hinv : Inv s) (hstep : InStep s)
    (hs : Simulator.step (osClock cfg) a s = some s') (hlog : s'.log = s.log) : Spaced s' where
  spaced := by
    rw [hlog]
    exact h.spaced
  past := by
    intro e he
    rw [hlog] at he
    exact (h.past e he).trans (time_le hs)
  fresh := by
    intro c p hin e he hp
    rw [hlog] at he
    by_cases ha : a = .cpu c
    · subst ha
      obtain ⟨-, ⟨hin, hbegun⟩ | ⟨hout, hbegun⟩⟩ := inSlot_of_cpuTurn (cpuTurn_of_cpuRoutine hs) hin
      · rw [hbegun]
        exact h.fresh c p hin e he hp
      · -- the slot it enters is the one after this
        rw [hbegun, ← hstep.time_eq hout]
        exact Nat.lt_succ_of_le (h.past e he)
    · obtain ⟨hcpu, -, hbegun⟩ := undisturbed hinv ha hs
      rw [hbegun]
      exact h.fresh c p (hcpu ▸ hin) e he hp

/-- A turn that runs an instruction runs it in a slot in which its process has not been run. -/
theorem Spaced.run {p : cfg.Proc} {t : ℤ} (h : Spaced s) (hinv : Inv s) (hstep : InStep s)
    (hx : s.cpu c = ⟨.run, some p, t⟩) :
    Spaced (setCpu (run (osClock cfg) c p s) c ⟨.top, some p, t - 1⟩) := by
  have hin : InSlot p (s.cpu c) := by
    rw [hx]
    exact ⟨rfl, .inr rfl⟩
  have htime : s.clock.time = begun s c := hstep.time_eq (by rw [hx]; rfl)
  have hfresh := h.fresh c p hin
  unfold Simulator.run
  split_ifs with hpc
  · refine ⟨h.spaced, h.past, ?_⟩
    intro c' q hin'
    by_cases hc : c' = c
    · subst hc
      rw [setCpu_self] at hin'
      simp [InSlot] at hin'
    · rw [setCpu_of_ne _ _ hc] at hin'
      exact h.fresh c' q hin'
  · refine ⟨?_, ?_, ?_⟩
    · refine List.pairwise_append.mpr ⟨h.spaced, List.pairwise_singleton _ _, ?_⟩
      intro e he e' he' hp
      obtain rfl := List.mem_singleton.mp he'
      show e.time < s.clock.time
      rw [htime]
      exact hfresh e he hp
    · intro e he
      rcases List.mem_append.mp he with he | he
      · exact h.past e he
      · obtain rfl := List.mem_singleton.mp he
        exact le_rfl
    · intro c' q hin' e he hp
      by_cases hc : c' = c
      · subst hc
        rw [setCpu_self] at hin'
        simp [InSlot] at hin'
      · rw [setCpu_of_ne _ _ hc] at hin'
        rcases List.mem_append.mp he with he | he
        · exact h.fresh c' q hin' e he hp
        · -- the other CPU holds another process
          obtain rfl := List.mem_singleton.mp he
          subst hp
          exact absurd (hinv.holder_eq hin.held_eq hin'.held_eq) hc

theorem Spaced.step {a : OsTurn cfg} (h : Spaced s) (hinv : Inv s) (hstep : InStep s)
    (hs : Simulator.step (osClock cfg) a s = some s') : Spaced s' := by
  have hframe := h.of_log_eq hinv hstep hs
  rcases step_cases hs with ⟨c, -, hc⟩ | ⟨-, hld⟩ | ⟨i, k, -, -, rfl⟩
  · cases hc with
    | run p t hx => exact h.run hinv hstep hx
    | _ => exact hframe rfl
  · cases hld <;> exact hframe rfl
  · exact hframe rfl

/-- The instructions run of a process are a slot or more apart in every state reached. -/
theorem spaced_after (as : List (OsTurn cfg)) : Spaced (simulate cfg as) := by
  have h : Inv (simulate cfg as) ∧ InStep (simulate cfg as) ∧ Spaced (simulate cfg as) :=
    @Machine.stutter_invariant _ _ (Simulator.step (osClock cfg))
      (fun s => Inv s ∧ InStep s ∧ Spaced s)
      (fun _ _ _ h hs => ⟨h.1.step hs, h.2.1.step hs, h.2.2.step h.1 h.2.1 hs⟩) as _
      ⟨inv_initial _, inStep_initial, spaced_initial⟩
  exact h.2.2

end Ossim.Simulator
