import Ossim.Machine.Fair
import Ossim.Simulator.Arrival
import Ossim.Simulator.Shutdown
import Ossim.Timer.Deadlock

/-!
# Time goes on

Every thread that is given turns comes to the end of its slot: a CPU or the loader has a number of
turns to go before it waits for the next slot or has left (`CpuLoc.left`, `LdLoc.left`), and so
has the timer, once the others wait (`timerLeft`). As long as the timer has devices to let go its
turns bring the whole number down; after that, those of a thread which does not wait yet do. So
in a run that gives every thread turns again and again, one slot comes after another until all
threads have left (`time_advances`).
-/

namespace Ossim.Simulator

open Machine Sched

variable {ι : Type*} {cfg : Config ι}
variable {s s' : OsState cfg} {c : Fin cfg.numCpus} {a : OsTurn cfg}

/-! ### The timer of the simulator -/

theorem Quiet.clock_step {done : Bool} {k k' : Timer.State (Party cfg.numCpus)}
    {x x' : Cpu cfg.Proc} (h : Quiet (osClock cfg) c done k x k' x') :
    k' = k ∨ ∃ b, b ≠ .stopTimer ∧ (∀ i, b ≠ .internal i) ∧
      Timer.step (attached cfg.numCpus) b k = some k' := by
  cases h with
  | dispatch _ _ | stop _ _ | skip _ _ => exact .inl rfl
  | idle _ _ h | slot _ _ h => exact .inr ⟨.nextSlot (.cpu c), by simp, by simp, h⟩
  | wake _ _ h | begin _ _ h => exact .inr ⟨.leave (.cpu c), by simp, by simp, h⟩
  | exit _ _ h => exact .inr ⟨.detachEvent (.cpu c), by simp, by simp, h⟩

/-- What a turn does to the timer is a step of the timer protocol: a call if the turn is a
thread's, and never `stop_timer`. -/
theorem clock_step (hs : step (osClock cfg) a s = some s') :
    s'.clock = s.clock ∨ ∃ b, b ≠ .stopTimer ∧ (∀ i, b = .internal i → a = .clock i) ∧
      Timer.step (attached cfg.numCpus) b s.clock = some s'.clock := by
  rcases step_cases hs with ⟨c, -, hc⟩ | ⟨-, hld⟩ | ⟨i, k, ha, hk, rfl⟩
  · cases hc with
    | run p t hx =>
      left
      simp only [setCpu, run]
      split_ifs <;> rfl
    | quiet k x hq =>
      refine hq.clock_step.imp_right ?_
      rintro ⟨b, hstop, hcall, hb⟩
      exact ⟨b, hstop, fun i hi => absurd hi (hcall i), hb⟩
    | _ => exact .inl rfl
  · cases hld with
    | quiet k l hq =>
      generalize s.ld = l₀ at hq
      cases hq with
      | idle h => exact .inr ⟨.nextSlot .ld, by simp, by simp, h⟩
      | wake h => exact .inr ⟨.leave .ld, by simp, by simp, h⟩
      | exit h => exact .inr ⟨.detachEvent .ld, by simp, by simp, h⟩
    | _ => exact .inl rfl
  · refine .inr ⟨.internal i, by simp, ?_, hk⟩
    rintro j ⟨⟩
    exact ha

/-- A place in the loader's loop. -/
def LdLoc.Loading : LdLoc → Prop
  | .check | .idle | .idleWait | .add => True
  | _ => False

/-- A place where a CPU is to run a process. -/
def CpuLoc.Armed : CpuLoc → Prop
  | .slot | .slotWait | .run => True
  | _ => False

/-- No thread is stuck. -/
structure Alive (s : OsState cfg) : Prop where
  /-- Every process is in one place. -/
  inv : Inv s
  /-- The timer is in step. -/
  inStep : InStep s
  /-- The device of the loader is where the loader is. -/
  onTime : OnTime s
  /-- The timer and the devices do not wait for each other. -/
  heard : Timer.Heard s.clock
  /-- The timer is not to stop. -/
  running : s.clock.timerStop = false
  /-- The loader has a process at hand in its loop. -/
  loading : s.ld.Loading → s.i < cfg.numProcesses
  /-- A CPU has one where it is to run it. -/
  armed : ∀ c, (s.cpu c).loc.Armed → (s.cpu c).proc ≠ none

theorem alive_initial : Alive (initial cfg Timer.startTimer) where
  inv := inv_initial _
  inStep := inStep_initial
  onTime := onTime_initial
  heard := Timer.heard_startTimer
  running := rfl
  loading := False.elim
  armed := fun _ h => h.elim

theorem LdTurn.loading (hs : LdTurn (osClock cfg) s s')
    (h : s.ld.Loading → s.i < cfg.numProcesses) : s'.ld.Loading → s'.i < cfg.numProcesses := by
  cases hs with
  | load hi hloc => exact fun _ => hi
  | store hi hloc => exact False.elim
  | look hi hloc => exact fun _ => hi
  | add hi hloc => exact False.elim
  | quiet k l hq =>
    show l.Loading → s.i < cfg.numProcesses
    generalize s.ld = l₀ at hq h
    cases hq with
    | idle _ => exact h
    | wake _ => exact h
    | exit _ => exact False.elim

theorem CpuTurn.armed (hs : CpuTurn (osClock cfg) c s s')
    (h : (s.cpu c).loc.Armed → (s.cpu c).proc ≠ none) :
    (s'.cpu c).loc.Armed → (s'.cpu c).proc ≠ none := by
  have hfetch : ∀ l t, (l = .idle ∨ l = .recheck) → ¬ ((fetch c l t s).cpu c).loc.Armed := by
    intro l t hl
    rw [fetch, setCpu_self]
    rcases hl with rfl | rfl <;> cases (getProc s.mlq).1 <;> exact id
  cases hs with
  | load t hx => exact fun hl => absurd hl (hfetch _ _ (.inl rfl))
  | replace q t hx => exact fun hl => absurd hl (hfetch _ _ (.inr rfl))
  | rotate q t hx => exact fun hl => absurd hl (hfetch _ _ (.inr rfl))
  | free q t hx hpc => simp [setCpu]
  | put q t hx hpc ht => simp
  | keep q t hx hpc ht => simp
  | run q t hx => simp
  | quiet k x hq =>
    rw [setCpu_self]
    generalize s.cpu c = y at hq h
    cases hq with
    | dispatch q t => simp
    | slot q t _ => exact h
    | begin q t _ => exact h
    | _ => exact False.elim

theorem Alive.step (h : Alive s) (hs : step (osClock cfg) a s = some s') : Alive s' where
  inv := h.inv.step hs
  inStep := h.inStep.step hs
  onTime := h.onTime.step h.inStep hs
  heard := by
    rcases clock_step hs with heq | ⟨b, -, -, hb⟩
    · rw [heq]
      exact h.heard
    · exact h.heard.step hb
  running := by
    rcases clock_step hs with heq | ⟨b, hne, -, hb⟩
    · rw [heq]
      exact h.running
    · exact ((Timer.step_detached hb).1.resolve_left hne).trans h.running
  loading := by
    rcases step_cases hs with ⟨c, -, hc⟩ | ⟨-, hld⟩ | ⟨i, k, -, -, rfl⟩
    · obtain ⟨hl, hi, -⟩ := hc.ld_eq
      rw [hl, hi]
      exact h.loading
    · exact hld.loading h.loading
    · exact h.loading
  armed := by
    intro c
    by_cases ha : a = .cpu c
    · subst ha
      exact (cpuTurn_of_cpuRoutine hs).armed (h.armed c)
    · rw [(undisturbed h.inv ha hs).cpu_eq]
      exact h.armed c

theorem alive_move (a : OsTurn cfg) (h : Alive s) : Alive (move (osClock cfg) a s) := by
  rcases stutter_cases (step (osClock cfg)) a s with hs | hs
  · exact h.step hs
  · rw [move, hs]
    exact h

/-! ### How many turns a thread has to go -/

/-- How many turns a CPU has to go, at most, before it waits for the next slot or has left. Its
device has begun `b` slots, and the time is `T`. -/
def CpuLoc.left (b T : ℕ) : CpuLoc → ℕ
  | .slotWait => if b = T then 6 else 0
  | .idleWait => if b = T then 5 else 0
  | .run => 5
  | .top => 4
  | .reaped | .requeued => 3
  | .recheck => 2
  | .idle | .slot | .detach => 1
  | .exited => 0

/-- How many the loader has to go, with `r` processes still to hand in. -/
def LdLoc.left (r b T : ℕ) : LdLoc → ℕ
  | .head => 3 * r + 2
  | .idleWait => if b = T then 3 * r + 2 else 0
  | .check => 3 * r + 1
  | .add => 3 * r
  | .idle | .detach => 1
  | .exited => 0

/-- How many a thread has to go. -/
def left (s : OsState cfg) : Party cfg.numCpus → ℕ
  | .cpu c => (s.cpu c).loc.left (begun s c) s.clock.time
  | .ld => s.ld.left (cfg.numProcesses - s.i) (s.clock.dev .ld).started s.clock.time

/-- How many steps the timer has to go, at most, before it counts the slot; a device it sleeps at
sends it back to its test. -/
def timerLeft (n : ℕ) {D : Type*} : Timer.TimerLoc D → ℕ
  | .release temp _ _ => temp.length + n + 3
  | .top => n + 2
  | .asleep _ temp _ _ => temp.length + 2
  | .scan temp _ _ => temp.length + 1
  | .exited => 0

/-- The turn of a thread. -/
def Party.turn {n : ℕ} {κ : Type*} : Party n → Turn n κ
  | .cpu c => .cpu c
  | .ld => .ld

/-- The threads that have a device. -/
def parties (n : ℕ) : List (Party n) := (attached n).list

/-- How many turns all have to go. -/
def allLeft (s : OsState cfg) : ℕ :=
  ((parties cfg.numCpus).map (left s)).sum + timerLeft (parties cfg.numCpus).length s.clock.timer

/-- The timer has devices to let go. -/
def Releasing {D : Type*} : Timer.TimerLoc D → Bool
  | .release _ _ _ | .top => true
  | _ => false

/-- The turn that brings the number down: the timer's while it has devices to let go, then that of
a thread that does not wait yet, and then the timer's again. -/
def helper (s : OsState cfg) : OsTurn cfg :=
  if Releasing s.clock.timer then .clock .timer
  else
    match (parties cfg.numCpus).find? fun d => left s d ≠ 0 with
    | some d => d.turn
    | none => .clock .timer

/-! ### A thread's own turns -/

/-- A call of `next_slot` returns in the slot it was for. -/
theorem started_of_leave {D : Type*} [DecidableEq D] {k k' : Timer.State D} {d : D}
    (hk : Timer.Inv k) (h : Timer.leave d k = some k') : (k.dev d).started = k.time := by
  obtain ⟨-, hout, hstarted, -, htime, -⟩ := Timer.leave_spec h
  have hworking := (hk.leave h).working_of_loc (Timer.Device.phase_eq_outside_iff.mp hout)
  obtain ⟨-, -, -, hst, -⟩ := hworking
  rw [← hstarted, ← htime]
  exact hst

/-- A turn of its own brings a CPU on. -/
theorem CpuTurn.left_lt (hs : CpuTurn (osClock cfg) c s s') (h : InStep s) :
    left s' (.cpu c) < left s (.cpu c) := by
  have hfetch : ∀ l t, (l = .idle ∨ l = .recheck) → left (fetch c l t s) (.cpu c) ≤ 2 := by
    intro l t hl
    rw [left, fetch, setCpu_self]
    rcases hl with rfl | rfl <;> cases (getProc s.mlq).1 <;> simp [CpuLoc.left]
  have hloc : ∀ {l q t}, s.cpu c = ⟨l, q, t⟩ →
      left s (.cpu c) = l.left (begun s c) s.clock.time := by
    intro l q t hx
    rw [left, hx]
  cases hs with
  | load t hx =>
    have hle := hfetch .idle t (.inl rfl)
    rw [hloc hx, CpuLoc.left]
    omega
  | replace q t hx =>
    have hle := hfetch .recheck 0 (.inr rfl)
    rw [hloc hx, CpuLoc.left]
    omega
  | rotate q t hx =>
    have hle := hfetch .recheck t (.inr rfl)
    rw [hloc hx, CpuLoc.left]
    omega
  | free q t hx hpc =>
    rw [hloc hx, left]
    simp [setCpu, CpuLoc.left]
  | put q t hx hpc ht =>
    rw [hloc hx, left, setCpu_self, CpuLoc.left, CpuLoc.left]
    omega
  | keep q t hx hpc ht =>
    rw [hloc hx, left, setCpu_self, CpuLoc.left, CpuLoc.left]
    omega
  | run q t hx =>
    rw [hloc hx, left, setCpu_self, CpuLoc.left, CpuLoc.left]
    omega
  | quiet k x hq =>
    have hleft : left (setCpu { s with clock := k } c x) (.cpu c) =
        x.loc.left (k.dev (.cpu c)).started k.time := by
      rw [left, setCpu_self]
      rfl
    have htimer := h.timer
    have htime := h.time_eq (c := c)
    rw [hleft, left]
    rw [begun] at htime ⊢
    generalize s.cpu c = y at hq htime
    generalize s.clock = k₀ at hq htimer htime
    cases hq with
    | dispatch _ _ | stop _ _ | skip _ _ => simp [CpuLoc.left]
    | idle _ _ h | slot _ _ h =>
      -- the slot it waits for is the next one
      obtain ⟨-, -, hstarted, -, htime', -⟩ := Timer.nextSlot_spec h
      rw [hstarted, htime', htime rfl, CpuLoc.left, CpuLoc.left, if_neg (by omega)]
      exact Nat.zero_lt_one
    | wake _ _ h | begin _ _ h =>
      rw [CpuLoc.left, CpuLoc.left, if_pos (started_of_leave htimer h)]
      omega
    | exit _ _ _ => simp [CpuLoc.left]

/-- A turn of its own brings the loader on. -/
theorem LdTurn.left_lt (hs : LdTurn (osClock cfg) s s') (h : InStep s) (hon : OnTime s)
    (hload : s.ld.Loading → s.i < cfg.numProcesses) : left s' .ld < left s .ld := by
  cases hs with
  | load hi hloc =>
    rw [left, left, hloc, LdLoc.left, LdLoc.left]
    show 3 * (cfg.numProcesses - s.i) + 1 < _
    omega
  | store hi hloc =>
    rw [left, left, hloc, LdLoc.left, LdLoc.left]
    omega
  | look hi hloc =>
    rw [left, left, hloc]
    simp only
    split_ifs <;> rw [LdLoc.left, LdLoc.left]
    · omega
    · show 3 * (cfg.numProcesses - s.i) < _
      omega
  | add hi hloc =>
    rw [left, left, hloc, LdLoc.left, LdLoc.left]
    show 3 * (cfg.numProcesses - (s.i + 1)) + 2 < _
    omega
  | quiet k l hq =>
    show l.left (cfg.numProcesses - s.i) (k.dev .ld).started k.time <
      s.ld.left (cfg.numProcesses - s.i) (s.clock.dev .ld).started s.clock.time
    have htimer := h.timer
    have htime := hon.time_eq h
    generalize s.ld = l₀ at hq hload htime
    generalize s.clock = k₀ at hq htimer htime
    cases hq with
    | idle h =>
      obtain ⟨-, -, hstarted, -, htime', -⟩ := Timer.nextSlot_spec h
      rw [hstarted, htime', htime rfl, LdLoc.left, LdLoc.left, if_neg (by omega)]
      exact Nat.zero_lt_one
    | wake h =>
      rw [LdLoc.left, LdLoc.left, if_pos (started_of_leave htimer h)]
      omega
    | exit h => exact Nat.zero_lt_one

/-- A turn brings no other thread on or back. -/
theorem left_eq (hinv : Inv s) (hs : step (osClock cfg) a s = some s')
    (htime : s'.clock.time = s.clock.time) {d : Party cfg.numCpus} (hd : a ≠ d.turn) :
    left s' d = left s d := by
  cases d with
  | cpu c =>
    obtain ⟨hcpu, -, hbegun⟩ := undisturbed hinv hd hs
    rw [left, left, hcpu, hbegun, htime]
  | ld =>
    rw [left, left, htime]
    rcases step_cases hs with ⟨c, -, hc⟩ | ⟨hld, -⟩ | ⟨i, k, -, hk, rfl⟩
    · obtain ⟨hl, hi, hdev⟩ := hc.ld_eq
      rw [hl, hi, hdev]
    · exact absurd hld hd
    · obtain ⟨-, hstarted⟩ := (Timer.internal_spec hk).1 .ld
      show s.ld.left _ (k.dev .ld).started _ = _
      rw [hstarted]

/-- A thread with a device is one of the parties. -/
theorem mem_parties {n : ℕ} (d : Party n) : d ∈ parties n := (attached n).mem_list d

theorem Party.turn_injective {n : ℕ} {κ : Type*} :
    Function.Injective (Party.turn : Party n → Turn n κ) := by
  rintro (c | _) (c' | _) h <;> cases h <;> rfl

/-! ### The timer's turns -/

section
variable {D : Type*} [DecidableEq D] {k k' : Timer.State D} {devs : Timer.DevList D}

/-- A signal sends the timer back to its test, and no further. -/
theorem timerLeft_signalEvent (n : ℕ) (d : D) (k : Timer.State D) :
    timerLeft n (Timer.signalEvent d k).timer = timerLeft n k.timer ∧
      Releasing (Timer.signalEvent d k).timer = Releasing k.timer := by
  unfold Timer.signalEvent
  split
  next e temp fsh event ht =>
    split_ifs
    · simp [timerLeft, Releasing, ht]
    · exact ⟨rfl, rfl⟩
  next => exact ⟨rfl, rfl⟩

/-- No call of a device brings the timer on or back. -/
theorem timerLeft_call {b : Timer.Act D} (hs : Timer.step devs b k = some k')
    (hb : ∀ i, b ≠ .internal i) (n : ℕ) :
    timerLeft n k'.timer = timerLeft n k.timer ∧ Releasing k'.timer = Releasing k.timer := by
  cases b with
  | nextSlot d =>
    simp only [Timer.step, Timer.nextSlot, Option.ite_none_right_eq_some, Option.some.injEq] at hs
    obtain ⟨-, rfl⟩ := hs
    exact timerLeft_signalEvent n d _
  | leave d =>
    simp only [Timer.step, Timer.leave, Option.ite_none_right_eq_some, Option.some.injEq] at hs
    obtain ⟨-, rfl⟩ := hs
    exact ⟨rfl, rfl⟩
  | detachEvent d =>
    simp only [Timer.step, Timer.detachEvent, Option.ite_none_right_eq_some,
      Option.some.injEq] at hs
    obtain ⟨-, rfl⟩ := hs
    exact timerLeft_signalEvent n d _
  | internal i => exact absurd rfl (hb i)
  | stopTimer =>
    obtain rfl := Option.some.inj hs
    exact ⟨rfl, rfl⟩

/-- A step that is no call brings the timer on, if the slot is not counted and the timer does not
leave its loop, but where it falls asleep or a thread does. -/
theorem timerLeft_internal {i : Timer.Internal D} (hs : Timer.internal devs i k = some k')
    (htime : k'.time = k.time) (hexit : k'.timer ≠ .exited) :
    timerLeft devs.list.length k'.timer < timerLeft devs.list.length k.timer ∨
      (timerLeft devs.list.length k'.timer = timerLeft devs.list.length k.timer ∧
        Releasing k'.timer = Releasing k.timer ∧
          (i = .timer → ∃ d temp fsh event, k.timer = .scan (d :: temp) fsh event ∧
            (k.dev d).done = false ∧ (k.dev d).fsh = false)) := by
  cases i with
  | timer =>
    obtain ⟨time, stop, t, dev⟩ := k
    rcases t with _ | ⟨_ | ⟨d, temp⟩, fsh, event⟩ | _ | ⟨_ | ⟨d, temp⟩, fsh, event⟩ | _ <;>
      simp only [Timer.internal, Timer.timerRoutine, reduceCtorEq, Option.some.injEq] at hs <;>
        subst hs
    · -- a new round of the first loop
      left
      split_ifs with hstop
      · simp [hstop] at hexit
      · simp [timerLeft]
    · -- the slot is counted
      simp at htime
    · by_cases hwait : (!(dev d).done && !(dev d).fsh) = true
      · right
        refine ⟨by simp [timerLeft, hwait], by simp [Releasing, hwait], ?_⟩
        intro _
        exact ⟨d, temp, fsh, event, rfl, by simpa using hwait⟩
      · left
        rw [if_neg hwait]
        simp [timerLeft]
    · -- the end of the second loop
      left
      split_ifs with hall
      · simp [hall] at hexit
      · simp [timerLeft]
    · left
      simp [timerLeft]
  | wakeTimer =>
    simp only [Timer.internal] at hs
    split at hs
    next d temp fsh event ht =>
      obtain rfl := Option.some.inj hs
      exact .inr ⟨by simp [timerLeft, ht], by simp [Releasing, ht], by simp⟩
    next => cases hs
  | sleep d =>
    simp only [Timer.internal, Option.ite_none_right_eq_some, Option.some.injEq] at hs
    obtain ⟨-, rfl⟩ := hs
    exact .inr ⟨rfl, rfl, by simp⟩
  | wake d =>
    simp only [Timer.internal, Option.ite_none_right_eq_some, Option.some.injEq] at hs
    obtain ⟨-, rfl⟩ := hs
    exact .inr ⟨rfl, rfl, by simp⟩

end

/-! ### The turn that helps -/

theorem Alive.exited_of_detached (h : Alive s) {d : Party cfg.numCpus}
    (hd : (s.clock.dev d).loc = .detached) :
    match d with
    | .cpu c => (s.cpu c).loc = .exited
    | .ld => s.ld = .exited := by
  have hphase := Timer.Device.phase_eq_detached_iff.mpr hd
  cases d with
  | cpu c =>
    rw [h.inStep.coupled c] at hphase
    show (s.cpu c).loc = .exited
    revert hphase
    cases (s.cpu c).loc <;> simp [CpuLoc.phase]
  | ld =>
    rw [h.onTime.coupled] at hphase
    show s.ld = .exited
    revert hphase
    cases s.ld <;> simp [LdLoc.phase]

/-- The timer leaves its loop when all have left theirs. -/
theorem Alive.stopped (h : Alive s) (ht : s.clock.timer = .exited) : Stopped s := by
  have hdetached : ∀ d, (s.clock.dev d).loc = .detached := by
    intro d
    have htally := h.heard.tally
    rw [ht] at htally
    exact h.inStep.timer.detached_of_fsh (htally h.running d)
  exact ⟨h.exited_of_detached (hdetached .ld), fun c => h.exited_of_detached (hdetached (.cpu c))⟩

/-- A thread that is at work, or has been let go, has turns to go. -/
theorem Alive.left_ne_zero (h : Alive s) {d : Party cfg.numCpus}
    (hd : Timer.Working s.clock.time (s.clock.dev d) ∨ Timer.LetGo s.clock.time (s.clock.dev d)) :
    left s d ≠ 0 := by
  have hstarted : (s.clock.dev d).started = s.clock.time := by
    rcases hd with ⟨-, -, -, hst, -⟩ | ⟨-, -, -, hst, -⟩ <;> exact hst
  have hphase : (s.clock.dev d).phase ≠ .detached := by
    rw [Ne, Timer.Device.phase_eq_detached_iff]
    rcases hd with ⟨hloc, -⟩ | ⟨hloc, -⟩ <;> rw [hloc] <;> exact nofun
  cases d with
  | cpu c =>
    rw [h.inStep.coupled c] at hphase
    rw [left, begun, hstarted]
    revert hphase
    cases (s.cpu c).loc <;> simp [CpuLoc.left, CpuLoc.phase]
  | ld =>
    rw [h.onTime.coupled] at hphase
    have hload := h.loading
    rw [left, hstarted]
    revert hphase hload
    cases s.ld <;> simp [LdLoc.left, LdLoc.phase, LdLoc.Loading]
    omega

/-- While the timer has none to let go, a thread that has turns to go can take them. -/
theorem Alive.isSome_step (h : Alive s) (hrel : Releasing s.clock.timer = false)
    {d : Party cfg.numCpus} (hd : left s d ≠ 0) : (Simulator.step (osClock cfg) d.turn s).isSome := by
  have hcurrent : Timer.Current s.clock.time (s.clock.dev d) := by
    have hfits := h.inStep.timer.fits d
    revert hfits hrel
    cases s.clock.timer with
    | top => exact nofun
    | release temp fsh event => exact nofun
    | exited => exact fun _ hfits => hfits
    | scan temp fsh event =>
      intro _ hfits
      simp only [Timer.Fits] at hfits
      split_ifs at hfits
      · exact hfits
      · exact hfits.current
    | asleep e temp fsh event =>
      intro _ hfits
      simp only [Timer.Fits] at hfits
      split_ifs at hfits
      · exact hfits
      · exact hfits.current
  -- a thread that waits in `next_slot` and has turns to go has been let go
  have hleave : (s.clock.dev d).phase = .inside → (s.clock.dev d).started = s.clock.time →
      (Timer.leave d s.clock).isSome := by
    intro hphase hst
    rcases hcurrent with ⟨hloc, -⟩ | ⟨hloc, -⟩ | ⟨-, -, -, hst', -⟩ | ⟨hloc, hdone, -⟩
    · rw [Timer.Device.phase, hloc] at hphase
      cases hphase
    · rw [Timer.Device.phase, hloc] at hphase
      cases hphase
    · omega
    · simp [Timer.leave, hloc, hdone]
  have hnext : (s.clock.dev d).phase = .outside →
      (Timer.nextSlot d s.clock).isSome ∧ (Timer.detachEvent d s.clock).isSome := by
    intro hphase
    have hloc := Timer.Device.phase_eq_outside_iff.mp hphase
    simp [Timer.nextSlot, Timer.detachEvent, hloc]
  cases d with
  | cpu c =>
    have hphase := h.inStep.coupled c
    have harmed := h.armed c
    rw [left, begun] at hd
    show (cpuRoutine (osClock cfg) c s).isSome = true
    unfold cpuRoutine
    generalize s.cpu c = x at hd hphase harmed
    obtain ⟨l, q, t⟩ := x
    cases l <;> simp only [CpuLoc.left, CpuLoc.phase] at hd hphase harmed ⊢
    case top =>
      cases q
      · rfl
      · simp only
        split_ifs <;> rfl
    case reaped => rfl
    case requeued => rfl
    case recheck => cases q <;> rfl
    case idle =>
      rw [Option.isSome_map]
      exact (hnext hphase).1
    case idleWait =>
      have hst : (s.clock.dev (.cpu c)).started = s.clock.time := by
        by_contra hne
        exact hd (if_neg hne)
      rw [Option.isSome_map]
      exact hleave hphase hst
    case slot =>
      rw [Option.isSome_map]
      exact (hnext hphase).1
    case slotWait =>
      have hst : (s.clock.dev (.cpu c)).started = s.clock.time := by
        by_contra hne
        exact hd (if_neg hne)
      rw [Option.isSome_map]
      exact hleave hphase hst
    case run =>
      cases q
      · exact absurd rfl (harmed trivial)
      · rfl
    case detach =>
      rw [Option.isSome_map]
      exact (hnext hphase).2
    case exited => exact absurd rfl hd
  | ld =>
    have hphase := h.onTime.coupled
    have hload := h.loading
    rw [left] at hd
    show (ldRoutine (osClock cfg) s).isSome = true
    unfold ldRoutine
    cases hl : s.ld <;> rw [hl] at hd hphase hload <;> simp only
    case head => split_ifs <;> rfl
    case check =>
      rw [dif_pos (hload trivial)]
      rfl
    case idle =>
      rw [Option.isSome_map]
      exact (hnext hphase).1
    case idleWait =>
      have hst : (s.clock.dev .ld).started = s.clock.time := by
        by_contra hne
        exact hd (if_neg hne)
      rw [Option.isSome_map]
      exact hleave hphase hst
    case add =>
      rw [dif_pos (hload trivial)]
      rfl
    case detach =>
      rw [Option.isSome_map]
      exact (hnext hphase).2
    case exited => exact absurd rfl hd

/-- Which turn helps, and why. -/
theorem helper_cases (s : OsState cfg) :
    (helper s = .clock .timer ∧ (Releasing s.clock.timer = true ∨ ∀ d, left s d = 0)) ∨
      ∃ d : Party cfg.numCpus, helper s = d.turn ∧ left s d ≠ 0 ∧
        Releasing s.clock.timer = false := by
  rw [helper]
  cases hrel : Releasing s.clock.timer with
  | true => exact .inl ⟨rfl, .inl rfl⟩
  | false =>
    simp only [if_false, Bool.false_eq_true]
    cases hfind : (parties cfg.numCpus).find? fun d => left s d ≠ 0 with
    | none =>
      refine .inl ⟨rfl, .inr fun d => ?_⟩
      simpa using List.find?_eq_none.mp hfind d (mem_parties d)
    | some d =>
      exact .inr ⟨d, rfl, by simpa using List.find?_some hfind, trivial⟩

theorem helper_congr (hleft : left s' = left s)
    (hrel : Releasing s'.clock.timer = Releasing s.clock.timer) : helper s' = helper s := by
  rw [helper, helper, hleft, hrel]

/-- The turn that helps is one that can be taken. -/
theorem Alive.helper_isSome (h : Alive s) (hstop : ¬ Stopped s) :
    (Simulator.step (osClock cfg) (helper s) s).isSome := by
  rcases helper_cases s with ⟨hhelp, hwhy⟩ | ⟨d, hhelp, hd, hrel⟩
  · rw [hhelp]
    show ((Timer.timerRoutine (attached cfg.numCpus) s.clock).map _).isSome = true
    rw [Option.isSome_map]
    cases ht : s.clock.timer with
    | top => simp [Timer.timerRoutine, ht]
    | scan temp fsh event => cases temp <;> simp [Timer.timerRoutine, ht]
    | release temp fsh event => cases temp <;> simp [Timer.timerRoutine, ht]
    | exited => exact absurd (h.stopped ht) hstop
    | asleep e temp fsh event =>
      -- the device it sleeps at has turns to go
      have hleft := h.left_ne_zero (h.heard.working h.inStep.timer ht)
      rcases hwhy with hrel | hall
      · rw [ht] at hrel
        cases hrel
      · exact absurd (hall e) hleft
  · rw [hhelp]
    exact h.isSome_step hrel hd

/-- The turn of a thread brings the number down. -/
theorem Alive.allLeft_lt (h : Alive s) {d : Party cfg.numCpus}
    (hs : Simulator.step (osClock cfg) d.turn s = some s') : allLeft s' < allLeft s := by
  have hthread : ∀ i : Timer.Internal (Party cfg.numCpus), d.turn ≠ .clock i := by
    intro i
    cases d <;> exact nofun
  have htime := time_eq_of_thread hs hthread
  have hlt : left s' d < left s d := by
    cases d with
    | cpu c => exact (cpuTurn_of_cpuRoutine hs).left_lt h.inStep
    | ld => exact (ldTurn_of_ldRoutine hs).left_lt h.inStep h.onTime h.loading
  have hsum : ((parties cfg.numCpus).map (left s')).sum < ((parties cfg.numCpus).map (left s)).sum := by
    refine List.sum_lt_sum _ _ ?_ ⟨d, mem_parties d, hlt⟩
    intro e _
    by_cases he : e = d
    · rw [he]
      exact hlt.le
    · exact (left_eq h.inv hs htime fun heq => he (Party.turn_injective heq).symm).le
  have htimer : timerLeft (parties cfg.numCpus).length s'.clock.timer =
      timerLeft (parties cfg.numCpus).length s.clock.timer := by
    rcases clock_step hs with heq | ⟨b, -, hcall, hb⟩
    · rw [heq]
    · exact (timerLeft_call hb (fun i hi => hthread i (hcall i hi)) _).1
  rw [allLeft, allLeft]
  omega

/-- **A turn** that neither ends the slot nor the run brings the number down, or is not the one
that helps and changes nothing about it. -/
theorem Alive.next (h : Alive s) (a : OsTurn cfg)
    (htime : (move (osClock cfg) a s).clock.time = s.clock.time)
    (hstop : ¬ Stopped (move (osClock cfg) a s)) :
    allLeft (move (osClock cfg) a s) < allLeft s ∨
      (a ≠ helper s ∧ allLeft (move (osClock cfg) a s) = allLeft s ∧
        helper (move (osClock cfg) a s) = helper s) := by
  cases hs : Simulator.step (osClock cfg) a s with
  | none =>
    have hmove : move (osClock cfg) a s = s := stutter_of_none hs
    rw [hmove] at hstop ⊢
    refine .inr ⟨?_, rfl, rfl⟩
    rintro rfl
    have hsome := h.helper_isSome hstop
    rw [hs] at hsome
    cases hsome
  | some s' =>
    have hmove : move (osClock cfg) a s = s' := stutter_of_some hs
    rw [hmove] at hstop htime ⊢
    have h' := h.step hs
    cases a with
    | cpu c => exact .inl (h.allLeft_lt (d := .cpu c) hs)
    | ld => exact .inl (h.allLeft_lt (d := .ld) hs)
    | clock i =>
      have hleft : left s' = left s := by
        funext d
        refine left_eq h.inv hs htime ?_
        cases d <;> exact nofun
      obtain ⟨k, hk, rfl⟩ := Option.map_eq_some_iff.mp hs
      have hexit : k.timer ≠ .exited := fun ht => hstop (h'.stopped ht)
      rw [allLeft, allLeft, hleft]
      rcases timerLeft_internal hk htime hexit with hlt | ⟨heq, hrel, hwait⟩
      · exact .inl (Nat.add_lt_add_left hlt _)
      · refine .inr ⟨?_, congrArg _ heq, helper_congr hleft hrel⟩
        intro hi
        rcases helper_cases s with ⟨hhelp, hwhy⟩ | ⟨d, hhelp, -, -⟩
        · -- the timer falls asleep at a device that has turns to go
          rw [hhelp] at hi
          obtain ⟨d, temp, fsh, event, ht, hdone, hfsh⟩ := hwait (Turn.clock.inj hi)
          rcases hwhy with hrel | hall
          · rw [ht] at hrel
            cases hrel
          · refine h.left_ne_zero ?_ (hall d)
            have hfits := h.inStep.timer.fits d
            rw [ht] at hfits
            simp only [Timer.Fits, List.mem_cons, true_or, if_true] at hfits
            rcases hfits with ⟨-, hx⟩ | hx | ⟨-, hx, -⟩ | hx
            · rw [hfsh] at hx
              cases hx
            · exact .inl hx
            · rw [hdone] at hx
              cases hx
            · exact .inr hx
        · rw [hhelp] at hi
          cases d <;> cases hi

/-! ### Endless runs -/

/-- Every thread, the timer's included, is given turns again and again. -/
structure Fair (as : ℕ → OsTurn cfg) : Prop where
  /-- The timer is. -/
  timer : Recurs as (.clock .timer)
  /-- The CPUs and the loader are. -/
  party : ∀ d : Party cfg.numCpus, Recurs as d.turn

/-- The state after `n` turns of an endless schedule. -/
def stateAt (cfg : Config ι) (as : ℕ → OsTurn cfg) (n : ℕ) : OsState cfg :=
  path (move (osClock cfg)) as (initial cfg Timer.startTimer) n

theorem stateAt_eq_simulate (cfg : Config ι) (as : ℕ → OsTurn cfg) (n : ℕ) :
    stateAt cfg as n = simulate cfg ((List.range n).map as) :=
  path_eq_run _ as _ n

theorem alive_stateAt (as : ℕ → OsTurn cfg) (n : ℕ) : Alive (stateAt cfg as n) :=
  path_invariant (fun a _ h => alive_move a h) alive_initial n

theorem time_move_le (a : OsTurn cfg) (s : OsState cfg) :
    s.clock.time ≤ (move (osClock cfg) a s).clock.time := by
  rcases stutter_cases (step (osClock cfg)) a s with hs | hs
  · exact time_le hs
  · rw [move, hs]

/-- The turn that helps brings the end of slot `T`, or of the run. -/
theorem helps (cfg : Config ι) (T : ℕ) :
    Helps (move (osClock cfg)) (fun s => Alive s ∧ T ≤ s.clock.time)
      (fun s => T < s.clock.time ∨ Stopped s) allLeft helper where
  keep := fun a s h => ⟨alive_move a h.1, h.2.trans (time_move_le a s)⟩
  next := by
    rintro a s ⟨h, hT⟩ hQ hQ'
    obtain ⟨hlate, -⟩ := not_or.mp hQ
    obtain ⟨hlate', hstop⟩ := not_or.mp hQ'
    have hle := time_move_le a s
    exact h.next a (by omega) hstop

theorem Fair.helper {as : ℕ → OsTurn cfg} (h : Fair as) (s : OsState cfg) : Recurs as (helper s) := by
  rcases helper_cases s with ⟨hhelp, -⟩ | ⟨d, hhelp, -, -⟩ <;> rw [hhelp]
  · exact h.timer
  · exact h.party d

/-- In a fair run any slot comes, or all threads leave. -/
theorem Fair.exists_le_time {as : ℕ → OsTurn cfg} (h : Fair as) (n T : ℕ) :
    ∃ m, n ≤ m ∧ (T ≤ (stateAt cfg as m).clock.time ∨ Stopped (stateAt cfg as m)) := by
  induction T with
  | zero => exact ⟨n, le_rfl, .inl (Nat.zero_le _)⟩
  | succ T ih =>
    obtain ⟨m, hm, hT | hstop⟩ := ih
    · obtain ⟨k, hk, hQ⟩ := (helps cfg T).eventually_after (fun s _ _ => h.helper s)
        ⟨alive_stateAt as m, hT⟩
      exact ⟨k, hm.trans hk, hQ⟩
    · exact ⟨m, hm, .inr hstop⟩

/-- **Time goes on.** In every run that gives the timer, the loader and every CPU turns again and
again, every one of them but the timer completes any number of calls of `next_slot`, or comes to
call `detach_event`: no thread is kept waiting for ever, whatever the processes are and whenever
threads wake without a signal. -/
theorem time_advances (cfg : Config ι) (as : ℕ → OsTurn cfg) (hfair : Fair as) (n T : ℕ) :
    ∃ m, n ≤ m ∧ ∀ d, ((stateAt cfg as m).clock.dev d).loc = .detached ∨
      T ≤ ((stateAt cfg as m).clock.dev d).completed := by
  obtain ⟨m, hm, htime⟩ := hfair.exists_le_time n (T + 1)
  have halive := alive_stateAt as m
  refine ⟨m, hm, ?_⟩
  intro d
  rcases htime with htime | ⟨hld, hcpu⟩
  · by_cases hloc : ((stateAt cfg as m).clock.dev d).loc = .detached
    · exact .inl hloc
    · have hcalls := (halive.inStep.timer.calls hloc).2
      exact .inr (by omega)
  · left
    rw [← Timer.Device.phase_eq_detached_iff]
    cases d with
    | cpu c =>
      rw [halive.inStep.coupled c, hcpu c]
      rfl
    | ld =>
      rw [halive.onTime.coupled, hld]
      rfl

/-- The CPUs, the loader and the timer by turns. -/
def everyTurn (cfg : Config ι) : ℕ → OsTurn cfg :=
  rounds (.clock .timer :: (parties cfg.numCpus).map Party.turn) (Nat.succ_pos _)

theorem fair_everyTurn (cfg : Config ι) : Fair (everyTurn cfg) where
  timer := recurs_rounds _ List.mem_cons_self
  party := fun d =>
    recurs_rounds _ (List.mem_cons_of_mem _ (List.mem_map_of_mem (mem_parties d)))

theorem time_advances_everyTurn :
    ∃ m, 3 ≤ m ∧
      ∀ d, ((stateAt twoProcesses (everyTurn twoProcesses) m).clock.dev d).loc = .detached ∨
        5 ≤ ((stateAt twoProcesses (everyTurn twoProcesses) m).clock.dev d).completed :=
  time_advances twoProcesses (everyTurn twoProcesses) (fair_everyTurn twoProcesses) 3 5

end Ossim.Simulator
