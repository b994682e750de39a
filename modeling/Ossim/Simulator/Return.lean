import Ossim.Simulator.Main

/-!
# The end of the program

Once the CPUs and the loader have exited, nothing keeps `main` from returning: it has not long to
go to `stop_timer`; the timer waits for no device then, and finds `timer_stop` set the next time
it looks, or all devices detached; and there are only so many devices to free (`returns_iff`).
-/

namespace Ossim.Simulator

open Machine

variable {ι : Type*} {cfg : Config ι} {s s' : Whole cfg} {t : OsState cfg} {a : OsTurn cfg}

/-! ### The main thread, to where it stops the timer -/

/-- The turns of the main thread until it tells the timer to stop. -/
def MainLoc.left (n : ℕ) : MainLoc → ℕ
  | .attach i => (n - i) + 2 * n + 9
  | .attachLd => 2 * n + 8
  | .startTimer => 2 * n + 7
  | .createLd => 2 * n + 6
  | .create i => (n - i) + n + 5
  | .join i => (n - i) + 3
  | .joinLd => 2
  | .stopTimer => 1
  | _ => 0

theorem threads_attachEvent (d : Party cfg.numCpus) (s : Whole cfg) :
    ∃ k, (attachEvent d s).threads = { s.threads with clock := k } := by
  rw [attachEvent]
  split_ifs
  · exact ⟨s.threads.clock, rfl⟩
  · exact ⟨_, rfl⟩

/-- The main thread does nothing to the threads but to their devices. -/
theorem threads_mainRoutine (hs : mainRoutine s = some s') :
    ∃ k, s'.threads = { s.threads with clock := k } := by
  rw [mainRoutine] at hs
  cases hmain : s.main <;> simp only [hmain] at hs
  case attach i =>
    cases hs
    split_ifs with hi
    · exact threads_attachEvent (.cpu ⟨i, hi⟩) s
    · exact ⟨s.threads.clock, rfl⟩
  case attachLd =>
    cases hs
    exact threads_attachEvent .ld s
  case create i =>
    cases hs
    split_ifs <;> exact ⟨s.threads.clock, rfl⟩
  case join i =>
    split_ifs at hs <;> cases hs <;> exact ⟨s.threads.clock, rfl⟩
  case joinLd =>
    split_ifs at hs
    cases hs
    exact ⟨s.threads.clock, rfl⟩
  case joinTimer =>
    split at hs <;> cases hs
    exact ⟨s.threads.clock, rfl⟩
  case free => split at hs <;> cases hs <;> exact ⟨s.threads.clock, rfl⟩
  case returned => cases hs
  all_goals
    cases hs
    exact ⟨_, rfl⟩

/-- Once all threads have exited, every turn leaves them so. -/
theorem exited_wholeStep {a : Option (OsTurn cfg)} (hs : wholeStep a s = some s')
    (h : ∀ d, Exited s.threads d) (d : Party cfg.numCpus) : Exited s'.threads d := by
  have hclock : ∃ k, s'.threads = { s.threads with clock := k } := by
    cases a with
    | none => exact threads_mainRoutine hs
    | some a =>
      obtain ⟨i, devs, clock, -, -, -, rfl⟩ := threadRoutine_of_exited hs h
      exact ⟨clock, rfl⟩
  obtain ⟨k, hk⟩ := hclock
  have hd := h d
  rw [hk]
  cases d <;> exact hd

/-- Once all threads have exited, the main thread goes on until it tells the timer to stop. -/
theorem mainRoutine_of_exited (h : ∀ d, Exited s.threads d) (hrank : s.main.rank ≤ 7) :
    ∃ s', mainRoutine s = some s' ∧ s'.main.left cfg.numCpus < s.main.left cfg.numCpus := by
  rw [mainRoutine]
  cases hmain : s.main <;> simp only [hmain, MainLoc.rank] at hrank ⊢
  case attach i =>
    refine ⟨_, rfl, ?_⟩
    split_ifs <;> simp only [MainLoc.left] <;> omega
  case create i =>
    refine ⟨_, rfl, ?_⟩
    split_ifs <;> simp only [MainLoc.left] <;> omega
  case join i =>
    split_ifs with hi hexited
    · refine ⟨_, rfl, ?_⟩
      simp only [MainLoc.left]
      omega
    · exact absurd (h (.cpu ⟨i, hi⟩)) hexited
    · refine ⟨_, rfl, ?_⟩
      simp only [MainLoc.left]
      omega
  case joinLd =>
    have hld : s.threads.ld = .exited := h .ld
    rw [if_pos hld]
    exact ⟨_, rfl, by simp [MainLoc.left]⟩
  case joinTimer => omega
  case free => omega
  case returned => omega
  all_goals exact ⟨_, rfl, by simp only [MainLoc.left]; omega⟩

/-- A thread's turn leaves the main thread where it is. -/
theorem main_threadRoutine (hs : threadRoutine a s = some s') :
    s'.main = s.main ∧ s'.devList = s.devList := by
  rw [threadRoutine] at hs
  split at hs
  · cases hs
  · split_ifs at hs
    obtain ⟨t, -, rfl⟩ := Option.map_eq_some_iff.mp hs
    exact ⟨rfl, rfl⟩

/-- All threads have exited, and the main thread is on its way. -/
structure Leaving (s : Whole cfg) : Prop extends Orderly s where
  /-- All threads have exited. -/
  exited : ∀ d, Exited s.threads d

theorem Leaving.move (h : Leaving s) (a : Option (OsTurn cfg)) :
    Leaving (stutter wholeStep a s) := by
  rcases stutter_cases wholeStep a s with hs | hs
  · exact ⟨h.step hs, exited_wholeStep hs h.exited⟩
  · rw [hs]
    exact h

/-- The main thread comes to where it waits for the timer. -/
theorem helps_stop (cfg : Config ι) :
    Helps (stutter wholeStep) (Leaving : Whole cfg → Prop) (fun s => 8 ≤ s.main.rank)
      (fun s => s.main.left cfg.numCpus) (fun _ => none) where
  keep := fun a _ h => h.move a
  next := by
    intro a s h hQ _
    cases a with
    | none =>
      obtain ⟨s', hs, hlt⟩ := mainRoutine_of_exited h.exited (by omega)
      have hmove : stutter wholeStep none s = s' := stutter_of_some hs
      rw [hmove]
      exact .inl hlt
    | some a =>
      right
      refine ⟨by simp, ?_, rfl⟩
      rcases stutter_cases wholeStep (some a) s with hs | hs
      · rw [(main_threadRoutine hs).1]
      · rw [hs]

section
variable {D : Type*} [DecidableEq D] {k k' : Timer.State D} {i : Timer.Internal D}

/-- The timer is to stop, and waits for no device. -/
structure Quitting (k : Timer.State D) : Prop where
  /-- It has been told. -/
  stop : k.timerStop = true
  /-- Every device has been detached. -/
  fsh : ∀ d, (k.dev d).fsh = true
  /-- It does not sleep. -/
  awake : ∀ d temp fsh event, k.timer ≠ .asleep d temp fsh event

/-- How many steps a timer has to go that is to stop and does not wait. -/
def timerLast (n : ℕ) : Timer.TimerLoc D → ℕ
  | .top => 1
  | .scan temp _ _ => temp.length + n + 3
  | .release temp _ _ => temp.length + 2
  | .asleep _ _ _ _ | .exited => 0

theorem Quitting.internal (h : Quitting k) (devs : Timer.DevList D)
    (hs : Timer.internal devs i k = some k') :
    Quitting k' ∧ ((i ≠ .timer ∧ k'.timer = k.timer) ∨
      timerLast devs.list.length k'.timer < timerLast devs.list.length k.timer) := by
  obtain ⟨hstop, hfsh, hawake⟩ := h
  cases i with
  | timer =>
    obtain ⟨time, stop, t, dev⟩ := k
    rcases t with _ | ⟨_ | ⟨d, temp⟩, fsh, event⟩ | _ | ⟨_ | ⟨d, temp⟩, fsh, event⟩ | _ <;>
      simp only [Timer.internal, Timer.timerRoutine, reduceCtorEq, Option.some.injEq] at hs <;>
        subst hs
    · -- it finds `timer_stop` set
      obtain rfl : stop = true := hstop
      exact ⟨⟨rfl, hfsh, by simp⟩, .inr (by simp [timerLast])⟩
    · exact ⟨⟨hstop, hfsh, by simp⟩, .inr (by simp [timerLast])⟩
    · have hd : (dev d).fsh = true := hfsh d
      simp only [hd, Bool.not_true, Bool.and_false, Bool.false_eq_true, if_false]
      exact ⟨⟨hstop, hfsh, by simp⟩, .inr (by simp [timerLast])⟩
    · refine ⟨⟨hstop, hfsh, ?_⟩, .inr ?_⟩ <;> split_ifs <;> simp [timerLast]
    · refine ⟨⟨hstop, ?_, by simp⟩, .inr (by simp [timerLast])⟩
      intro e
      by_cases he : e = d
      · subst he
        simp only [Timer.setDev_self, Timer.signalTimer]
        split_ifs <;> exact hfsh e
      · rw [Timer.setDev_of_ne _ _ he]
        exact hfsh e
  | wakeTimer =>
    rw [Timer.internal] at hs
    split at hs
    next d temp fsh event ht => exact absurd ht (hawake d temp fsh event)
    next => cases hs
  | sleep d =>
    simp only [Timer.internal, Option.ite_none_right_eq_some, Option.some.injEq] at hs
    obtain ⟨-, rfl⟩ := hs
    refine ⟨⟨hstop, ?_, hawake⟩, .inl ⟨by simp, rfl⟩⟩
    intro e
    exact (Timer.setDev_congr Timer.Device.fsh (by rfl) e).trans (hfsh e)
  | wake d =>
    simp only [Timer.internal, Option.ite_none_right_eq_some, Option.some.injEq] at hs
    obtain ⟨-, rfl⟩ := hs
    refine ⟨⟨hstop, ?_, hawake⟩, .inl ⟨by simp, rfl⟩⟩
    intro e
    exact (Timer.setDev_congr Timer.Device.fsh (by rfl) e).trans (hfsh e)

theorem Quitting.isSome (h : Quitting k) (devs : Timer.DevList D) (ht : k.timer ≠ .exited) :
    ∃ k', Timer.internal devs .timer k = some k' := by
  rw [Timer.internal, Timer.timerRoutine]
  cases hloc : k.timer with
  | top => exact ⟨_, rfl⟩
  | scan temp fsh event => cases temp <;> exact ⟨_, rfl⟩
  | asleep d temp fsh event => exact absurd hloc (h.awake d temp fsh event)
  | release temp fsh event => cases temp <;> exact ⟨_, rfl⟩
  | exited => exact absurd hloc ht

theorem fsh_of_detached (h : Timer.Inv k) {d : D} (hd : (k.dev d).loc = .detached) :
    (k.dev d).fsh = true := by
  have hnot : ¬ Timer.InNextSlot (k.dev d) := by
    rw [Timer.InNextSlot, hd]
    simp
  rcases (h.fits d).cases with (h | h | h | h) | h
  · exact h.2
  · exact absurd (hd.symm.trans h.1) (by simp)
  · exact absurd h.1 hnot
  · exact absurd (hd.symm.trans h.1) (by simp)
  · exact absurd h.1 hnot

end

/-- When the CPUs and the loader have exited, all devices have been detached, and the timer does
not sleep. -/
theorem Alive.quitting (h : Alive t) (hexited : ∀ d, Exited t d) :
    Quitting (stopTimer t).clock := by
  have hfsh : ∀ d, (t.clock.dev d).fsh = true := by
    intro d
    refine fsh_of_detached h.inStep.timer ?_
    rw [← Timer.Device.phase_eq_detached_iff]
    cases d with
    | cpu c =>
      rw [h.inStep.coupled c, show (t.cpu c).loc = .exited from hexited (.cpu c)]
      rfl
    | ld =>
      rw [h.onTime.coupled, show t.ld = .exited from hexited .ld]
      rfl
  refine ⟨rfl, hfsh, ?_⟩
  intro d temp fsh event ht
  have hwaits := (h.heard.waits d temp fsh event ht).2
  rw [hfsh d] at hwaits
  cases hwaits

/-- What is so in every state reached, with the end of the timer. -/
structure Quits (s : Whole cfg) : Prop extends Orderly s where
  /-- The timer that is told to stop does so. -/
  quitting : 8 ≤ s.main.rank → Quitting s.threads.clock

theorem alive_simulate (as : List (OsTurn cfg)) : Alive (simulate cfg as) :=
  run_invariant (I := Alive) (fun a _ h => alive_move a h) as alive_initial

/-- The main thread tells the timer to stop once, and leaves the threads as they are from then on. -/
theorem stopTimer_of_mainRoutine (hs : mainRoutine s = some s') (hrank : 8 ≤ s'.main.rank) :
    (8 ≤ s.main.rank ∧ s'.threads = s.threads) ∨
      (s.main.rank = 7 ∧ s'.threads = stopTimer s.threads) := by
  rw [mainRoutine] at hs
  cases hmain : s.main <;> simp only [hmain] at hs
  case attach i =>
    cases hs
    split_ifs at hrank <;> simp [MainLoc.rank] at hrank
  case create i =>
    cases hs
    split_ifs at hrank <;> simp [MainLoc.rank] at hrank
  case join i => split_ifs at hs <;> cases hs <;> simp [MainLoc.rank] at hrank
  case joinLd =>
    split_ifs at hs
    cases hs
    simp [MainLoc.rank] at hrank
  case stopTimer =>
    cases hs
    exact .inr ⟨rfl, rfl⟩
  case joinTimer =>
    split at hs <;> cases hs
    exact .inl ⟨by simp [MainLoc.rank], rfl⟩
  case free => split at hs <;> cases hs <;> exact .inl ⟨by simp [MainLoc.rank], rfl⟩
  case returned => cases hs
  all_goals
    cases hs
    simp [MainLoc.rank] at hrank

theorem Quits.move (h : Quits s) (a : Option (OsTurn cfg)) : Quits (stutter wholeStep a s) := by
  rcases stutter_cases wholeStep a s with hs | hs
  · generalize stutter wholeStep a s = s' at hs
    refine ⟨h.step hs, ?_⟩
    intro hrank
    cases a with
    | none =>
      rcases stopTimer_of_mainRoutine hs hrank with ⟨hle, heq⟩ | ⟨hseven, heq⟩
      · rw [heq]
        exact h.quitting hle
      · obtain ⟨as, has⟩ := h.running (by omega) (by omega)
        rw [heq]
        exact (has ▸ alive_simulate as : Alive s.threads).quitting (h.exited (by omega))
    | some a =>
      rw [(main_threadRoutine hs).1] at hrank
      obtain ⟨i, devs, clock, -, -, hclock, rfl⟩ := threadRoutine_of_exited hs (h.exited (by omega))
      exact ((h.quitting hrank).internal devs hclock).1
  · rw [hs]
    exact h

theorem quits_initial (junk : Party cfg.numCpus → Timer.Device) : Quits (wholeInitial cfg junk) where
  toOrderly := orderly_initial junk
  quitting := by simp [wholeInitial, MainLoc.rank]

/-- What the timer and then the main thread have to go once the timer is told to stop. -/
def lastLeft (s : Whole cfg) : ℕ :=
  match s.main with
  | .joinTimer => s.devList.length + 2 + timerLast s.devList.length s.threads.clock.timer
  | .free => s.devList.length + 1
  | _ => 0

/-- Whose turn brings the end nearer: the timer's until it has exited. -/
def lastHelper (s : Whole cfg) : Option (OsTurn cfg) :=
  match s.main, s.threads.clock.timer with
  | .joinTimer, .exited => none
  | .joinTimer, _ => some (.clock .timer)
  | _, _ => none

theorem lastHelper_eq (s : Whole cfg) :
    (lastHelper s = none ∧ (s.main = .joinTimer → s.threads.clock.timer = .exited)) ∨
      (lastHelper s = some (.clock .timer) ∧ s.main = .joinTimer ∧
        s.threads.clock.timer ≠ .exited) := by
  rw [lastHelper]
  split
  next hmain htimer => exact .inl ⟨rfl, fun _ => htimer⟩
  next hmain hno => exact .inr ⟨rfl, hmain, fun h => hno h⟩
  next hno _ => exact .inl ⟨rfl, fun hmain => absurd hmain (by simpa using hno)⟩

/-- What the main thread does once the timer is told to stop. -/
theorem mainRoutine_of_stopped (hrank : 8 ≤ s.main.rank) (hs : mainRoutine s = some s') :
    (s.main = .joinTimer ∧ s.threads.clock.timer = .exited ∧ s' = { s with main := .free }) ∨
      (s.main = .free ∧ s' = { s with main := .returned }) ∨
        ∃ d devs, s.main = .free ∧ s.devList = d :: devs ∧
          s' = { s with devList := devs, freed := s.freed ++ [d] } := by
  rw [mainRoutine] at hs
  cases hmain : s.main <;> simp only [hmain, MainLoc.rank] at hrank hs
  case joinTimer =>
    split at hs
    next htimer =>
      cases hs
      exact .inl ⟨rfl, htimer, rfl⟩
    next => cases hs
  case free =>
    split at hs
    next hlist =>
      cases hs
      exact .inr (.inl ⟨rfl, rfl⟩)
    next d devs hlist =>
      cases hs
      exact .inr (.inr ⟨d, devs, rfl, hlist, rfl⟩)
  case returned => cases hs
  all_goals omega

theorem mainRoutine_isSome (hrank : 8 ≤ s.main.rank) (hreturned : s.main ≠ .returned)
    (htimer : s.main = .joinTimer → s.threads.clock.timer = .exited) :
    ∃ s', mainRoutine s = some s' := by
  rw [mainRoutine]
  cases hmain : s.main <;> simp only [hmain, MainLoc.rank] at hrank ⊢
  case joinTimer =>
    rw [htimer hmain]
    exact ⟨_, rfl⟩
  case free => cases s.devList <;> exact ⟨_, rfl⟩
  case returned => exact absurd hmain hreturned
  all_goals omega

theorem list_of_devices {n : ℕ} {l : List (Party n)} {devs : Timer.DevList (Party n)}
    (h : devices l = some devs) : devs.list = l := by
  rw [devices] at h
  split_ifs at h
  cases h
  rfl

/-- A timer that is to exit can go on. -/
theorem Quits.timer_isSome (h : Quits s) (hmain : s.main = .joinTimer)
    (htimer : s.threads.clock.timer ≠ .exited) :
    ∃ s', threadRoutine (.clock .timer) s = some s' := by
  have hrank : s.main.rank = 8 := by rw [hmain]; rfl
  have hstarted : s.timerStarted = true := h.started.mpr (by omega)
  obtain ⟨k, hk⟩ := (h.quitting (by omega)).isSome (attached cfg.numCpus) htimer
  have hthere : There s (.clock .timer) := hstarted
  rw [threadRoutine, h.devices_eq (by omega) (by omega)]
  simp only [if_pos hthere, step, timerClock, hk]
  exact ⟨_, rfl⟩

/-- The timer exits, and the main thread frees the devices and returns. -/
theorem helps_return (cfg : Config ι) :
    Helps (stutter wholeStep) (fun s : Whole cfg => Quits s ∧ 8 ≤ s.main.rank)
      (fun s => s.main = .returned) lastLeft lastHelper where
  keep := by
    rintro a s ⟨h, hrank⟩
    refine ⟨h.move a, ?_⟩
    rcases stutter_cases wholeStep a s with hs | hs
    · generalize stutter wholeStep a s = s' at hs
      cases a with
      | none =>
        rcases mainRoutine_of_stopped hrank hs with ⟨-, -, rfl⟩ | ⟨-, rfl⟩ | ⟨d, devs, -, -, rfl⟩
        · simp [MainLoc.rank]
        · simp [MainLoc.rank]
        · exact hrank
      | some a =>
        rw [(main_threadRoutine hs).1]
        exact hrank
    · rw [hs]
      exact hrank
  next := by
    rintro a s ⟨h, hrank⟩ hQ hQ'
    cases hs : wholeStep a s with
    | none =>
      rw [stutter_of_none hs]
      refine .inr ⟨?_, rfl, rfl⟩
      rintro rfl
      rcases lastHelper_eq s with ⟨hhelp, htimer⟩ | ⟨hhelp, hmain, htimer⟩
      · rw [hhelp] at hs
        obtain ⟨s', hs'⟩ := mainRoutine_isSome hrank hQ htimer
        cases hs'.symm.trans hs
      · rw [hhelp] at hs
        obtain ⟨s', hs'⟩ := h.timer_isSome hmain htimer
        cases hs'.symm.trans hs
    | some s' =>
      rw [stutter_of_some hs] at hQ' ⊢
      cases a with
      | none =>
        left
        rcases mainRoutine_of_stopped hrank hs with
          ⟨hmain, htimer, rfl⟩ | ⟨-, rfl⟩ | ⟨d, devs, hmain, hlist, rfl⟩
        · simp [lastLeft, hmain, htimer, timerLast]
        · exact absurd rfl hQ'
        · simp [lastLeft, hmain, hlist]
      | some a =>
        obtain ⟨i, devs, clock, rfl, hdevs, hclock, rfl⟩ := threadRoutine_of_exited hs
          (h.exited (by omega))
        have hstep := ((h.quitting hrank).internal devs hclock).2
        rw [list_of_devices hdevs] at hstep
        by_cases hmain : s.main = .joinTimer
        · rcases hstep with ⟨hne, htimer⟩ | hlt
          · refine .inr ⟨?_, by simp only [lastLeft, hmain, htimer],
              by simp only [lastHelper, htimer]⟩
            rcases lastHelper_eq s with ⟨hhelp, -⟩ | ⟨hhelp, -⟩ <;> rw [hhelp]
            · simp
            · simpa using hne
          · left
            simp only [lastLeft, hmain]
            omega
        · have hhelp : ∀ k, lastHelper { s with threads := { s.threads with clock := k } } = none := by
            intro k
            rcases lastHelper_eq { s with threads := { s.threads with clock := k } } with
              ⟨hhelp, -⟩ | ⟨-, hjoin, -⟩
            · exact hhelp
            · exact absurd hjoin hmain
          refine .inr ⟨?_, ?_, (hhelp clock).trans (hhelp s.threads.clock).symm⟩
          · rw [show lastHelper s = none from hhelp s.threads.clock]
            simp
          · cases hloc : s.main <;> simp_all [lastLeft]

/-- The state after `n` turns of an endless schedule. -/
def wholeAt (cfg : Config ι) (junk : Party cfg.numCpus → Timer.Device)
    (as : ℕ → Option (OsTurn cfg)) (n : ℕ) : Whole cfg :=
  path (stutter wholeStep) as (wholeInitial cfg junk) n

/-- **When the program ends.** In every run that gives the main thread and the timer turns again
and again, `main` returns, with every device freed, if and only if the CPUs and the loader exit. -/
theorem returns_iff (cfg : Config ι) (junk : Party cfg.numCpus → Timer.Device)
    (as : ℕ → Option (OsTurn cfg)) (hmain : Recurs as none)
    (htimer : Recurs as (some (.clock .timer))) :
    (∃ n, (wholeAt cfg junk as n).main = .returned ∧
        (wholeAt cfg junk as n).freed = parties cfg.numCpus) ↔
      ∃ n, ∀ d, Exited (wholeAt cfg junk as n).threads d := by
  have hquits : ∀ n, Quits (wholeAt cfg junk as n) :=
    path_invariant (fun a _ h => h.move a) (quits_initial junk)
  constructor
  · rintro ⟨n, hn, -⟩
    exact ⟨n, (hquits n).exited (by rw [hn]; decide)⟩
  · rintro ⟨n, hn⟩
    have hleaving : Leaving (wholeAt cfg junk as n) := ⟨(hquits n).toOrderly, hn⟩
    obtain ⟨m, -, hm⟩ := (helps_stop cfg).eventually_after (fun _ _ _ => hmain) hleaving
    have hfair : ∀ s : Whole cfg, Recurs as (lastHelper s) := by
      intro s
      rcases lastHelper_eq s with ⟨h, -⟩ | ⟨h, -⟩ <;> rw [h]
      · exact hmain
      · exact htimer
    obtain ⟨k, -, hk⟩ := (helps_return cfg).eventually_after (fun s _ _ => hfair s) ⟨hquits m, hm⟩
    refine ⟨k, hk, ?_⟩
    have hdevices := (hquits k).devices
    have hmain' : (wholeAt cfg junk as k).main = .returned := hk
    rwa [(hquits k).emptied hk, List.append_nil, hmain'] at hdevices

/-- All take turns. -/
def everyTurnWhole (cfg : Config ι) : ℕ → Option (OsTurn cfg) :=
  rounds (none :: some (.clock .timer) :: (parties cfg.numCpus).map fun d => some d.turn)
    (Nat.succ_pos _)

theorem returns_iff_oneProcess :
    (∃ n, (wholeAt oneProcess (fun _ => Timer.attachEvent) (everyTurnWhole oneProcess) n).main =
          .returned ∧
        (wholeAt oneProcess (fun _ => Timer.attachEvent) (everyTurnWhole oneProcess) n).freed =
          parties oneProcess.numCpus) ↔
      ∃ n, ∀ d, Exited
        (wholeAt oneProcess (fun _ => Timer.attachEvent) (everyTurnWhole oneProcess) n).threads d :=
  returns_iff oneProcess (fun _ => Timer.attachEvent) (everyTurnWhole oneProcess)
    (recurs_rounds _ List.mem_cons_self)
    (recurs_rounds _ (List.mem_cons_of_mem _ List.mem_cons_self))

end Ossim.Simulator
