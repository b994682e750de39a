import Ossim.Machine.Run
import Mathlib.Data.List.Nodup
import Mathlib.Logic.Function.Basic

/-!
# The timer and its devices

`timer.c`: the timer thread waits until every device has called `next_slot` or
`detach_event`, counts one time slot, and lets the devices go. A device says that it
has arrived by setting its `done` under `event_lock`; it is let go when the timer clears
`done` under `timer_lock`.

## The model

A step of a thread is what it does between taking a lock and giving it back, or
between two such sections. A thread that waits on a condition variable is `asleep`; a
signal wakes it, and so may anything (`wake`, `wakeTimer`: `pthread_cond_wait` may
return without a signal). A thread that has woken tests its condition again, so waking
is going back to the test.

A device is anything; the devices are those on `dev_list` when the timer starts, in any
order (`DevList`), since `attach_event` attaches nothing later. The field `started` of a
device counts its calls of `next_slot`, and `completed` those that returned; the program
keeps neither.

`_time` is a natural number; in the program it is a 64-bit word and would begin again
after `2 ^ 64` slots. The locks and condition variables do nothing but delimit the steps
and are not fields.

What is *not* modelled here: what `stop_timer` does once the timer thread has ended, which is
to free the devices (`Simulator/Main`).
-/

namespace Ossim.Timer

open Machine

/-- `dev_list`. -/
structure DevList (D : Type*) where
  /-- The devices, in the order of the list. -/
  list : List D
  /-- Each is a container of its own. -/
  nodup : list.Nodup
  /-- Every device is attached. -/
  mem_list : ∀ d, d ∈ list

/-- Where the thread of a device is. -/
inductive Loc where
  /-- Outside `next_slot` and `detach_event`. -/
  | working
  /-- In `next_slot`, about to test `done` under `timer_lock`. -/
  | testing
  /-- In `next_slot`, in `pthread_cond_wait(&timer_cond, &timer_lock)`. -/
  | asleep
  /-- Past `detach_event`. -/
  | detached
  deriving DecidableEq

/-- `struct timer_id_t`, and where its thread is. -/
structure Device where
  /-- `done`. -/
  done : Bool
  /-- `fsh`. -/
  fsh : Bool
  /-- Where its thread is. -/
  loc : Loc
  /-- How many calls of `next_slot` it has started. -/
  started : ℕ
  /-- How many of them have returned. -/
  completed : ℕ

/-- `attach_event`: a device before the timer starts. -/
def attachEvent : Device := ⟨false, false, .working, 0, 0⟩

/-- Where the timer thread is; `temp` is the rest of the list it goes through, and `fsh` and
`event` are its counts. -/
inductive TimerLoc (D : Type*) where
  /-- At the test of `timer_stop`. -/
  | top
  /-- In the first loop. -/
  | scan (temp : List D) (fsh event : ℕ)
  /-- In the first loop, in `pthread_cond_wait(&event_cond, &event_lock)` of the device `d`. -/
  | asleep (d : D) (temp : List D) (fsh event : ℕ)
  /-- In the second loop. -/
  | release (temp : List D) (fsh event : ℕ)
  /-- Past `pthread_exit`. -/
  | exited

/-- The static data of `timer.c`, and where its threads are. -/
structure State (D : Type*) where
  /-- `_time`. -/
  time : ℕ
  /-- `timer_stop`. -/
  timerStop : Bool
  /-- The timer thread. -/
  timer : TimerLoc D
  /-- The devices. -/
  dev : D → Device

/-- Whose turn it is, where it is not a call a device makes. -/
inductive Internal (D : Type*) where
  /-- The timer thread goes on. -/
  | timer
  /-- The timer thread wakes without a signal. -/
  | wakeTimer
  /-- Device `d` finds `done` set and waits. -/
  | sleep (d : D)
  /-- Device `d` wakes without a signal. -/
  | wake (d : D)

/-- Whose turn it is. -/
inductive Act (D : Type*) where
  /-- Device `d` calls `next_slot`: its first critical section. -/
  | nextSlot (d : D)
  /-- Device `d` finds `done` cleared and returns from `next_slot`. -/
  | leave (d : D)
  /-- Device `d` calls `detach_event`. -/
  | detachEvent (d : D)
  /-- A step that is no call's start or end. -/
  | internal (k : Internal D)
  /-- The main thread calls `stop_timer`. -/
  | stopTimer

variable {D : Type*} [DecidableEq D]

/-- Device `d` replaced by `x`. -/
def setDev (s : State D) (d : D) (x : Device) : State D := { s with dev := Function.update s.dev d x }

@[simp] theorem setDev_self (s : State D) (d : D) (x : Device) :
    (setDev s d x).dev d = x := Function.update_self ..

theorem setDev_of_ne (s : State D) {d e : D} (x : Device) (h : e ≠ d) :
    (setDev s d x).dev e = s.dev e :=
  Function.update_of_ne h ..

/-- `pthread_cond_signal(&event_cond)` of device `d`, the timer being the one thread that
waits on it. -/
def signalEvent (d : D) (s : State D) : State D :=
  match s.timer with
  | .asleep e temp fsh event => if e = d then { s with timer := .scan (d :: temp) fsh event } else s
  | _ => s

/-- `pthread_cond_signal(&timer_cond)`, the device being the one thread that waits on it. -/
def signalTimer (x : Device) : Device := if x.loc = .asleep then { x with loc := .testing } else x

/-- `timer_routine`. -/
def timerRoutine (devs : DevList D) (s : State D) : Option (State D) :=
  match s.timer with
  | .top =>
    some (if s.timerStop then { s with timer := .exited }
      else { s with timer := .scan devs.list 0 0 })
  | .scan (d :: temp) fsh event =>
    some (if !(s.dev d).done && !(s.dev d).fsh then { s with timer := .asleep d temp fsh event }
      else { s with timer := .scan temp (if (s.dev d).fsh then fsh + 1 else fsh) (event + 1) })
  | .scan [] fsh event => some { s with time := s.time + 1, timer := .release devs.list fsh event }
  | .asleep _ _ _ _ => none
  | .release (d :: temp) fsh event =>
    some { setDev s d (signalTimer { s.dev d with done := false }) with
      timer := .release temp fsh event }
  | .release [] fsh event => some { s with timer := if fsh = event then .exited else .top }
  | .exited => none

/-- The first critical section of `next_slot`. -/
def nextSlot (d : D) (s : State D) : Option (State D) :=
  if (s.dev d).loc = .working then
    some (signalEvent d
      (setDev s d { s.dev d with done := true, loc := .testing, started := (s.dev d).started + 1 }))
  else none

/-- The test of `done` in `next_slot` that ends its loop. -/
def leave (d : D) (s : State D) : Option (State D) :=
  if (s.dev d).loc = .testing ∧ (s.dev d).done = false then
    some (setDev s d { s.dev d with loc := .working, completed := (s.dev d).completed + 1 })
  else none

/-- `detach_event`. -/
def detachEvent (d : D) (s : State D) : Option (State D) :=
  if (s.dev d).loc = .working then
    some (signalEvent d (setDev s d { s.dev d with fsh := true, loc := .detached }))
  else none

/-- The steps that are no call's start or end. -/
def internal (devs : DevList D) (k : Internal D) (s : State D) : Option (State D) :=
  match k with
  | .timer => timerRoutine devs s
  | .wakeTimer =>
    match s.timer with
    | .asleep d temp fsh event => some { s with timer := .scan (d :: temp) fsh event }
    | _ => none
  | .sleep d =>
    if (s.dev d).loc = .testing ∧ (s.dev d).done = true then
      some (setDev s d { s.dev d with loc := .asleep })
    else none
  | .wake d =>
    if (s.dev d).loc = .asleep then some (setDev s d { s.dev d with loc := .testing }) else none

/-- A step. -/
def step (devs : DevList D) (a : Act D) (s : State D) : Option (State D) :=
  match a with
  | .nextSlot d => nextSlot d s
  | .leave d => leave d s
  | .detachEvent d => detachEvent d s
  | .internal k => internal devs k s
  | .stopTimer => some { s with timerStop := true }

/-- `current_time`. -/
def currentTime (s : State D) : ℕ := s.time

/-- `start_timer`. -/
def startTimer : State D := ⟨0, false, .top, fun _ => attachEvent⟩

/-- The state after the steps of a schedule; whoever cannot move loses its turn. -/
def after (devs : DevList D) (as : List (Act D)) : State D := run (stutter (step devs)) as startTimer

end Ossim.Timer
