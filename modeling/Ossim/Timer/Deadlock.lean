import Ossim.Timer.Devices
import Ossim.Timer.LockStep

/-!
# The timer and its devices never wait for each other

A thread asleep is asleep for a reason that another thread will remove: the timer sleeps
at a device that has neither arrived nor detached, and so is at work or on its way back to
it; a device sleeps while its `done` is set, and the timer comes to clear it (`noDeadlock`).
The two conditions have a lock each. What makes a signal under one enough is that `done`
is set and tested by the timer under `event_lock`, and cleared and tested by the device
under `timer_lock`.

The timer leaves its loop when `fsh` and `event` agree after the first loop has gone
through the devices one by one. They agree only if each device had detached when its turn
came (`Tally`), and a device that has detached stays so. It leaves its loop as well when
`timer_stop` is set; `main` calls `stop_timer` once it has joined every other thread
(`StopsLast`).
-/

namespace Ossim.Timer

open Machine

variable {D : Type*}

/-- The timer is still to clear `done` of the device `d`: in the second loop of this round,
or in that of the next. -/
def ReleaseAhead (s : State D) (d : D) : Prop :=
  match s.timer with
  | .top => s.timerStop = false
  | .scan _ _ _ | .asleep _ _ _ _ => True
  | .release temp fsh event => d ∈ temp ∨ (fsh ≠ event ∧ s.timerStop = false)
  | .exited => False

/-! ### The counts of the first loop -/

/-- What `fsh` and `event` say of the devices the first loop has passed. -/
def Tally (t : TimerLoc D) (stop : Bool) (dev : D → Device) : Prop :=
  match t with
  | .top => True
  | .scan temp fsh event => fsh ≤ event ∧ (fsh = event → ∀ d, d ∉ temp → (dev d).fsh = true)
  | .asleep e temp fsh event =>
    fsh ≤ event ∧ (fsh = event → ∀ d, d ∉ e :: temp → (dev d).fsh = true)
  | .release _ fsh event => fsh = event → ∀ d, (dev d).fsh = true
  | .exited => stop = false → ∀ d, (dev d).fsh = true

/-- What keeps the threads from waiting for each other. -/
structure Heard (s : State D) : Prop where
  /-- The device the timer sleeps at has not arrived and has not detached. -/
  waits : ∀ d temp fsh event, s.timer = .asleep d temp fsh event →
    (s.dev d).done = false ∧ (s.dev d).fsh = false
  /-- The counts say which devices have detached. -/
  tally : Tally s.timer s.timerStop s.dev

theorem heard_startTimer : Heard (startTimer : State D) where
  waits := nofun
  tally := trivial

/-- `fsh` is never cleared, and a device with `fsh` set goes on counting. -/
theorem Tally.mono {t : TimerLoc D} {stop : Bool} {dev dev' : D → Device} (h : Tally t stop dev)
    (hfsh : ∀ d, (dev d).fsh = true → (dev' d).fsh = true) : Tally t stop dev' := by
  cases t with
  | top => trivial
  | scan temp fsh event => exact ⟨h.1, fun he d hd => hfsh d (h.2 he d hd)⟩
  | asleep e temp fsh event => exact ⟨h.1, fun he d hd => hfsh d (h.2 he d hd)⟩
  | release temp fsh event => exact fun he d => hfsh d (h he d)
  | exited => exact fun he d => hfsh d (h he d)

variable [DecidableEq D]

/-! ### A device moves -/

/-- A move of a device that does not touch `done` or `fsh`. -/
theorem Heard.setDev {s : State D} (h : Heard s) {d : D} {x : Device}
    (hdone : x.done = (s.dev d).done) (hfsh : x.fsh = (s.dev d).fsh) : Heard (setDev s d x) := by
  refine ⟨?_, ?_⟩
  · intro e temp fsh event ht
    rw [setDev_congr Device.done hdone, setDev_congr Device.fsh hfsh]
    exact h.waits e temp fsh event ht
  · apply h.tally.mono
    intro e he
    rw [setDev_congr Device.fsh hfsh]
    exact he

/-- A move of a device that sets `done` or `fsh`, and signals: a timer asleep at the device
wakes, and one asleep at another device is not concerned. -/
theorem Heard.signalEvent {s : State D} (h : Heard s) {d : D} {x : Device}
    (hfsh : (s.dev d).fsh = true → x.fsh = true) :
    Heard (signalEvent d (Timer.setDev s d x)) := by
  have htally : Tally s.timer s.timerStop (Timer.setDev s d x).dev := by
    apply h.tally.mono
    intro e he
    by_cases hed : e = d
    · subst hed
      rw [setDev_self]
      exact hfsh he
    · rwa [setDev_of_ne s x hed]
  unfold Timer.signalEvent
  split
  next e temp fsh event ht =>
    have ht' : s.timer = .asleep e temp fsh event := ht
    split_ifs with hed
    · subst hed
      rw [ht'] at htally
      exact ⟨nofun, htally⟩
    · refine ⟨?_, htally⟩
      intro e' temp' fsh' event' he'
      cases ht'.symm.trans he'
      rw [setDev_of_ne s x hed]
      exact h.waits e temp fsh event ht'
  next hno => exact ⟨fun e temp fsh event ht => absurd ht (hno e temp fsh event), htally⟩

/-! ### The timer moves -/

theorem Heard.timerRoutine {devs : DevList D} {s s' : State D} (h : Heard s)
    (hs : timerRoutine devs s = some s') : Heard s' := by
  obtain ⟨time, stop, t, dev⟩ := s
  obtain ⟨-, htally⟩ := h
  cases t with
  | top =>
    simp only [Timer.timerRoutine, Option.some.injEq] at hs
    subst hs
    cases stop with
    | true => exact ⟨by simp, by simp [Tally]⟩
    | false => exact ⟨by simp, le_rfl, fun _ d hd => absurd (devs.mem_list d) hd⟩
  | scan temp fsh event =>
    obtain ⟨hle, hall⟩ := htally
    cases temp with
    | nil =>
      simp only [Timer.timerRoutine, Option.some.injEq] at hs
      subst hs
      exact ⟨by simp, fun he d => hall he d List.not_mem_nil⟩
    | cons e temp =>
      simp only [Timer.timerRoutine, Option.some.injEq] at hs
      subst hs
      by_cases hwait : (!(dev e).done && !(dev e).fsh) = true
      · rw [if_pos hwait]
        refine ⟨?_, hle, hall⟩
        intro d temp' fsh' event' ht
        cases ht
        simpa using hwait
      · rw [if_neg hwait]
        refine ⟨by simp, ?_⟩
        by_cases hfsh : (dev e).fsh = true
        · -- the device has detached and both counts go up
          simp only [Tally, if_pos hfsh]
          refine ⟨by omega, ?_⟩
          intro he d hd
          by_cases hde : d = e
          · exact hde ▸ hfsh
          · exact hall (by omega) d (by simp [hde, hd])
        · -- from here on `fsh` stays behind
          simp only [Tally, if_neg hfsh]
          exact ⟨by omega, fun he => by omega⟩
  | asleep e temp fsh event => cases hs
  | release temp fsh event =>
    cases temp with
    | nil =>
      simp only [Timer.timerRoutine, Option.some.injEq] at hs
      subst hs
      split_ifs with he
      · exact ⟨by simp, fun _ => htally he⟩
      · exact ⟨by simp, trivial⟩
    | cons e temp =>
      simp only [Timer.timerRoutine, Option.some.injEq] at hs
      subst hs
      refine ⟨by simp, ?_⟩
      intro he d
      have hd := htally he d
      by_cases hde : d = e
      · subst hde
        simp only [Timer.setDev, Function.update_self, signalTimer]
        split_ifs <;> exact hd
      · simpa only [Timer.setDev, Function.update_of_ne hde] using hd
  | exited => cases hs

/-! ### Every step -/

theorem Heard.step {devs : DevList D} {a : Act D} {s s' : State D} (h : Heard s)
    (hs : step devs a s = some s') : Heard s' := by
  cases a with
  | nextSlot d =>
    simp only [Timer.step, nextSlot, Option.ite_none_right_eq_some, Option.some.injEq] at hs
    obtain ⟨-, rfl⟩ := hs
    exact h.signalEvent fun hf => hf
  | leave d =>
    simp only [Timer.step, leave, Option.ite_none_right_eq_some, Option.some.injEq] at hs
    obtain ⟨-, rfl⟩ := hs
    exact h.setDev rfl rfl
  | detachEvent d =>
    simp only [Timer.step, detachEvent, Option.ite_none_right_eq_some, Option.some.injEq] at hs
    obtain ⟨-, rfl⟩ := hs
    exact h.signalEvent fun _ => rfl
  | internal k =>
    cases k with
    | timer => exact h.timerRoutine hs
    | wakeTimer =>
      simp only [Timer.step, internal] at hs
      split at hs
      next e temp fsh event ht =>
        obtain rfl := Option.some.inj hs
        have htally := h.tally
        rw [ht] at htally
        exact ⟨by simp, htally⟩
      · cases hs
    | sleep d =>
      simp only [Timer.step, internal, Option.ite_none_right_eq_some, Option.some.injEq] at hs
      obtain ⟨-, rfl⟩ := hs
      exact h.setDev rfl rfl
    | wake d =>
      simp only [Timer.step, internal, Option.ite_none_right_eq_some, Option.some.injEq] at hs
      obtain ⟨-, rfl⟩ := hs
      exact h.setDev rfl rfl
  | stopTimer =>
    obtain rfl := Option.some.inj hs
    refine ⟨h.waits, ?_⟩
    have htally := h.tally
    cases ht : s.timer <;> rw [ht] at htally
    case exited => simp [Tally]
    all_goals exact htally

theorem heard_after (devs : DevList D) (as : List (Act D)) : Heard (after devs as) :=
  stutter_invariant (fun _ _ _ h hs => h.step hs) as heard_startTimer

/-! ### `stop_timer` -/

/-- `stop_timer` is called only when every device has detached. -/
def StopsLast (devs : DevList D) (as : List (Act D)) : Prop :=
  Along (stutter (step devs)) (fun s a => a = .stopTimer → ∀ d, (s.dev d).loc = .detached)
    as startTimer

/-- A thread goes on by itself: not by a wake-up without a signal, nor by `stop_timer`. -/
def Moves (devs : DevList D) (s : State D) (a : Act D) : Prop :=
  (step devs a s).isSome ∧ a ≠ .stopTimer ∧ a ≠ .internal .wakeTimer ∧
    ∀ d, a ≠ .internal (.wake d)

/-- `timer_stop` is set by `stop_timer` alone, and a device that has detached stays so. -/
theorem step_detached {devs : DevList D} {a : Act D} {s s' : State D}
    (hs : step devs a s = some s') :
    (a = .stopTimer ∨ s'.timerStop = s.timerStop) ∧
      ∀ d, (s.dev d).phase = .detached → (s'.dev d).phase = .detached := by
  have hother : ∀ {d e : D}, (s.dev d).phase ≠ .detached → (∀ e, e ≠ d → s'.dev e = s.dev e) →
      (s.dev e).phase = .detached → (s'.dev e).phase = .detached := by
    intro d e hd hrest he
    rwa [hrest e (by rintro rfl; exact hd he)]
  cases a with
  | nextSlot d =>
    obtain ⟨hout, -, -, hrest, -, hstop⟩ := nextSlot_spec hs
    exact ⟨.inr hstop, fun e he => hother (by rw [hout]; exact nofun) hrest he⟩
  | leave d =>
    obtain ⟨hin, -, -, hrest, -, hstop⟩ := leave_spec hs
    exact ⟨.inr hstop, fun e he => hother (by rw [hin]; exact nofun) hrest he⟩
  | detachEvent d =>
    obtain ⟨hout, -, -, hrest, -, hstop⟩ := detachEvent_spec hs
    exact ⟨.inr hstop, fun e he => hother (by rw [hout]; exact nofun) hrest he⟩
  | internal k =>
    obtain ⟨hphase, -, hstop⟩ := internal_spec hs
    exact ⟨.inr hstop, fun e he => (hphase e).1.trans he⟩
  | stopTimer =>
    obtain rfl := Option.some.inj hs
    exact ⟨.inl rfl, fun _ he => he⟩

/-- When `timer_stop` is set every device has detached. -/
theorem StopsLast.detached {devs : DevList D} {as : List (Act D)} (h : StopsLast devs as)
    (hstop : (after devs as).timerStop = true) (d : D) :
    ((after devs as).dev d).loc = .detached := by
  have hinv : (after devs as).timerStop = true → ∀ d, ((after devs as).dev d).loc = .detached := by
    apply Along.invariant (I := fun s : State D => s.timerStop = true →
      ∀ d, (s.dev d).loc = .detached) _ h nofun
    intro a s hs ha
    rcases stutter_cases (step devs) a s with hstep | hstep
    · obtain ⟨hstop, hdet⟩ := step_detached hstep
      simp only [Device.phase_eq_detached_iff] at hdet
      intro hset d
      rcases hstop with rfl | hstop
      · exact hdet d (ha rfl d)
      · exact hdet d (hs (hstop ▸ hset) d)
    · rwa [hstep]
  exact hinv hstop d

/-! ### What follows -/

/-- `fsh` is set by `detach_event` alone. -/
theorem Inv.detached_of_fsh {s : State D} (h : Inv s) {d : D} (hd : (s.dev d).fsh = true) :
    (s.dev d).loc = .detached := by
  rcases (h.fits d).cases with (h | h | h | h) | h
  · exact h.1
  all_goals
    obtain ⟨-, -, hfsh, -⟩ := h
    rw [hfsh] at hd
    cases hd

/-- The device the timer sleeps at is at work, or on its way back to it. -/
theorem Heard.working {s : State D} (h : Heard s) (hinv : Inv s) {d : D} {temp : List D}
    {fsh event : ℕ} (ht : s.timer = .asleep d temp fsh event) :
    Working s.time (s.dev d) ∨ LetGo s.time (s.dev d) := by
  obtain ⟨hdone, hfsh⟩ := h.waits d temp fsh event ht
  rcases (hinv.fits d).cases with (⟨-, hx⟩ | hx | ⟨-, hx, -⟩ | hx) | ⟨-, hx, -⟩
  · exact absurd (hfsh.symm.trans hx) nofun
  · exact .inl hx
  · exact absurd (hdone.symm.trans hx) nofun
  · exact .inr hx
  · exact absurd (hdone.symm.trans hx) nofun

/-- The timer comes to clear `done` of a device that has not detached, unless it is to stop. -/
theorem Heard.releaseAhead {s : State D} (h : Heard s) (hinv : Inv s) {d : D}
    (hd : (s.dev d).loc ≠ .detached) (hstop : s.timerStop = false) : ReleaseAhead s d := by
  have hfsh : ¬ ∀ d, (s.dev d).fsh = true := fun hall => hd (hinv.detached_of_fsh (hall d))
  have htally := h.tally
  rw [ReleaseAhead]
  cases ht : s.timer with
  | top => exact hstop
  | scan temp fsh event => trivial
  | asleep e temp fsh event => trivial
  | release temp fsh event =>
    rw [ht] at htally
    exact .inr ⟨fun he => hfsh (htally he), hstop⟩
  | exited =>
    rw [ht] at htally
    exact hfsh (htally hstop)

/-- The timer thread goes on by itself if it can. -/
theorem moves_timer {devs : DevList D} {s : State D}
    (h : (timerRoutine devs s).isSome) : Moves devs s (.internal .timer) :=
  ⟨h, by simp, by simp, by simp⟩

/-- Some thread goes on by itself while the timer has not left its loop. -/
theorem Heard.moves {s : State D} (h : Heard s) (hinv : Inv s) (devs : DevList D)
    (ht : s.timer ≠ .exited) : ∃ a, Moves devs s a := by
  cases htimer : s.timer with
  | top => exact ⟨_, moves_timer (by simp [Timer.timerRoutine, htimer])⟩
  | scan temp fsh event =>
    exact ⟨_, moves_timer (by cases temp <;> simp [Timer.timerRoutine, htimer])⟩
  | asleep d temp fsh event =>
    rcases h.working hinv htimer with ⟨hloc, -⟩ | ⟨hloc, hdone, -⟩
    · exact ⟨.nextSlot d, by simp [Timer.step, nextSlot, hloc], by simp, by simp, by simp⟩
    · exact ⟨.leave d, by simp [Timer.step, leave, hloc, hdone], by simp, by simp, by simp⟩
  | release temp fsh event =>
    exact ⟨_, moves_timer (by cases temp <;> simp [Timer.timerRoutine, htimer])⟩
  | exited => exact absurd htimer ht

/-- **The timer protocol neither deadlocks nor stops early.** In every state reached:

* a timer asleep at a device has found it neither arrived nor detached, and it is still so;
* a device asleep has its `done` set, and the timer is still to clear it unless
  `stop_timer` was called too soon;
* the timer and every device that has not detached are not all asleep;
* some thread goes on by itself until the timer has left its loop and every device has
  detached, unless `stop_timer` was called too soon;
* if `stop_timer` has not been called, the timer has left its loop only if every device has
  detached. -/
theorem noDeadlock (devs : DevList D) (as : List (Act D)) :
    (∀ d temp fsh event, (after devs as).timer = .asleep d temp fsh event →
      ((after devs as).dev d).done = false ∧ ((after devs as).dev d).fsh = false) ∧
      (∀ d, ((after devs as).dev d).loc = .asleep →
        ((after devs as).dev d).done = true ∧
          (StopsLast devs as → ReleaseAhead (after devs as) d)) ∧
      ¬ ((∃ d temp fsh event, (after devs as).timer = .asleep d temp fsh event) ∧
        ∀ d, ((after devs as).dev d).loc ≠ .detached → ((after devs as).dev d).loc = .asleep) ∧
      (StopsLast devs as →
        ((after devs as).timer = .exited ∧ ∀ d, ((after devs as).dev d).loc = .detached) ∨
          ∃ a, Moves devs (after devs as) a) ∧
      ((after devs as).timerStop = false → (after devs as).timer = .exited →
        ∀ d, ((after devs as).dev d).loc = .detached) := by
  have hinv := inv_after devs as
  have h := heard_after devs as
  have hexit : (after devs as).timerStop = false → (after devs as).timer = .exited →
      ∀ d, ((after devs as).dev d).loc = .detached := by
    intro hstop ht d
    have htally := h.tally
    rw [ht] at htally
    exact hinv.detached_of_fsh (htally hstop d)
  refine ⟨h.waits, ?_, ?_, ?_, hexit⟩
  · intro d hd
    refine ⟨hinv.done_of_asleep hd, ?_⟩
    intro hlast
    apply h.releaseAhead hinv
    · rw [hd]
      exact nofun
    · by_contra hstop
      have hdet := hlast.detached (by simpa using hstop) d
      exact absurd (hd.symm.trans hdet) nofun
  · rintro ⟨⟨d, temp, fsh, event, ht⟩, hall⟩
    rcases h.working hinv ht with ⟨hloc, -⟩ | ⟨hloc, -⟩ <;>
      exact absurd (hloc.symm.trans (hall d (by simp [hloc]))) nofun
  · intro hlast
    by_cases ht : (after devs as).timer = .exited
    · left
      refine ⟨ht, ?_⟩
      cases hstop : (after devs as).timerStop with
      | true => exact hlast.detached hstop
      | false => exact hexit hstop ht
    · exact .inr (h.moves hinv devs ht)

end Ossim.Timer
