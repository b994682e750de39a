import Ossim.Simulator.Liveness

/-!
# The main thread

`main` (`os.c`) attaches a device for each CPU and one for the loader, starts the timer, creates
the threads, waits for them, and stops the timer, which frees the devices (`timer.c`).

What the threads do is a run of the simulator from when the timer starts; every device is freed
once, and when the first one is, every thread has exited (`orderly`).

## The model

A turn is a step of the main thread or of a thread that has been created. `dev_list` is the list of
the devices, each named by the thread that it is for; `timer_id` of a thread is what `attach_event`
returned for it. The timer goes through the `dev_list` there is. A step through a `timer_id` that is
`NULL`, or of the timer on a list that is not one of all devices (`Timer.DevList`), has no result.

What is *not* modelled: `read_config`, before which there are no threads (`Boot/Config`); what
`init_memphy` and `init_scheduler` do, of which the first uses nothing that a thread does and the
second is what `Sched.start` says; printing.
-/

namespace Ossim.Simulator

open Machine

/-- Where the main thread is. -/
inductive MainLoc where
  /-- In the loop that attaches the devices of the CPUs, with its `i`. -/
  | attach (i : ℕ)
  /-- At `attach_event` for the loader. -/
  | attachLd
  /-- At `start_timer`. -/
  | startTimer
  /-- At `pthread_create` for the loader. -/
  | createLd
  /-- In the loop that creates the CPUs, with its `i`. -/
  | create (i : ℕ)
  /-- In the loop that waits for the CPUs, with its `i`. -/
  | join (i : ℕ)
  /-- At `pthread_join` for the loader. -/
  | joinLd
  /-- At the store `timer_stop = 1` of `stop_timer`. -/
  | stopTimer
  /-- At its `pthread_join` for the timer. -/
  | joinTimer
  /-- In its loop that frees the devices. -/
  | free
  /-- Past `return`. -/
  | returned

/-- The main thread, and what it works on. -/
structure Whole {ι : Type*} (cfg : Config ι) where
  /-- The main thread. -/
  main : MainLoc
  /-- `dev_list`. -/
  devList : List (Party cfg.numCpus)
  /-- `timer_id` of each thread; `none` is `NULL`. -/
  timerId : Party cfg.numCpus → Option (Party cfg.numCpus)
  /-- `timer_started`. -/
  timerStarted : Bool
  /-- The threads created, the last one first. -/
  created : List (Party cfg.numCpus)
  /-- The devices freed, the first one first. -/
  freed : List (Party cfg.numCpus)
  /-- The threads. -/
  threads : OsState cfg

variable {ι : Type*} {cfg : Config ι}

/-- `attach_event`. -/
def attachEvent (d : Party cfg.numCpus) (s : Whole cfg) : Whole cfg :=
  if s.timerStarted then { s with timerId := Function.update s.timerId d none }
  else { s with
    timerId := Function.update s.timerId d (some d)
    devList := d :: s.devList
    threads := { s.threads with clock := Timer.setDev s.threads.clock d Timer.attachEvent } }

/-- `stop_timer`, up to its `pthread_join`. -/
def stopTimer (s : OsState cfg) : OsState cfg := { s with clock := { s.clock with timerStop := true } }

/-- `main`. -/
def mainRoutine (s : Whole cfg) : Option (Whole cfg) :=
  match s.main with
  | .attach i =>
    some (if h : i < cfg.numCpus then { attachEvent (.cpu ⟨i, h⟩) s with main := .attach (i + 1) }
      else { s with main := .attachLd })
  | .attachLd => some { attachEvent .ld s with main := .startTimer }
  | .startTimer => some { s with timerStarted := true, main := .createLd }
  | .createLd => some { s with created := .ld :: s.created, main := .create 0 }
  | .create i =>
    some (if h : i < cfg.numCpus then
        { s with created := .cpu ⟨i, h⟩ :: s.created, main := .create (i + 1) }
      else { s with main := .join 0 })
  | .join i =>
    if h : i < cfg.numCpus then
      if (s.threads.cpu ⟨i, h⟩).loc = .exited then some { s with main := .join (i + 1) } else none
    else some { s with main := .joinLd }
  | .joinLd => if s.threads.ld = .exited then some { s with main := .stopTimer } else none
  | .stopTimer => some { s with threads := stopTimer s.threads, main := .joinTimer }
  | .joinTimer =>
    match s.threads.clock.timer with
    | .exited => some { s with main := .free }
    | _ => none
  | .free =>
    match s.devList with
    | [] => some { s with main := .returned }
    | d :: devs => some { s with devList := devs, freed := s.freed ++ [d] }
  | .returned => none

/-- The list of all devices, if it is one. -/
def devices {n : ℕ} (devs : List (Party n)) : Option (Timer.DevList (Party n)) :=
  if h : devs.Nodup ∧ (∀ c, .cpu c ∈ devs) ∧ .ld ∈ devs then
    some ⟨devs, h.1, fun d => by cases d; exacts [h.2.1 _, h.2.2]⟩
  else none

/-- The thread is there, and has its device. -/
def There (s : Whole cfg) : OsTurn cfg → Prop
  | .cpu c => .cpu c ∈ s.created ∧ s.timerId (.cpu c) = some (.cpu c)
  | .ld => .ld ∈ s.created ∧ s.timerId .ld = some .ld
  | .clock _ => s.timerStarted = true

instance (s : Whole cfg) (a : OsTurn cfg) : Decidable (There s a) :=
  match a with
  | .cpu _ => inferInstanceAs (Decidable (_ ∧ _))
  | .ld => inferInstanceAs (Decidable (_ ∧ _))
  | .clock _ => inferInstanceAs (Decidable (_ = true))

/-- A step of a thread. -/
def threadRoutine (a : OsTurn cfg) (s : Whole cfg) : Option (Whole cfg) :=
  match devices s.devList with
  | none => none
  | some devs =>
    if There s a then (step (timerClock devs) a s.threads).map fun t => { s with threads := t }
    else none

/-- A step: that of a thread, or that of the main thread (`none`). -/
def wholeStep : Option (OsTurn cfg) → Whole cfg → Option (Whole cfg)
  | none => mainRoutine
  | some a => threadRoutine a

/-- What the program starts with, where `junk` is in the devices before they are attached. -/
def wholeInitial (cfg : Config ι) (junk : Party cfg.numCpus → Timer.Device) : Whole cfg where
  main := .attach 0
  devList := []
  timerId := fun _ => none
  timerStarted := false
  created := []
  freed := []
  threads := initial cfg ⟨0, false, .top, junk⟩

/-- The state after the turns of a schedule. -/
def wholeAfter (cfg : Config ι) (junk : Party cfg.numCpus → Timer.Device)
    (as : List (Option (OsTurn cfg))) : Whole cfg :=
  Machine.run (stutter wholeStep) as (wholeInitial cfg junk)

/-! ### What is so where the main thread is -/

/-- How far the main thread is. -/
def MainLoc.rank : MainLoc → ℕ
  | .attach _ => 0
  | .attachLd => 1
  | .startTimer => 2
  | .createLd => 3
  | .create _ => 4
  | .join _ => 5
  | .joinLd => 6
  | .stopTimer => 7
  | .joinTimer => 8
  | .free => 9
  | .returned => 10

/-- The main thread has not stored `timer_stop = 1`. -/
def MainLoc.BeforeStop : MainLoc → Prop
  | .joinTimer | .free | .returned => False
  | _ => True

theorem MainLoc.beforeStop_iff (l : MainLoc) : l.BeforeStop ↔ l.rank ≤ 7 := by
  cases l <;> simp [MainLoc.BeforeStop, MainLoc.rank]

/-- The devices attached, the last one first. -/
def MainLoc.attached (n : ℕ) : MainLoc → List (Party n)
  | .attach i => ((List.finRange n).take i).reverse.map .cpu
  | .attachLd => (List.finRange n).reverse.map .cpu
  | _ => parties n

/-- The threads created, the last one first. -/
def MainLoc.created (n : ℕ) : MainLoc → List (Party n)
  | .attach _ | .attachLd | .startTimer | .createLd => []
  | .create i => ((List.finRange n).take i).reverse.map .cpu ++ [.ld]
  | _ => (List.finRange n).reverse.map .cpu ++ [.ld]

/-- The main thread has waited for this thread. -/
def MainLoc.Joined {n : ℕ} : MainLoc → Party n → Prop
  | .join i, .cpu c => c < i
  | .joinLd, .cpu _ => True
  | .stopTimer, _ | .joinTimer, _ | .free, _ | .returned, _ => True
  | _, _ => False

/-- What is so in every state reached. -/
structure Orderly (s : Whole cfg) : Prop where
  /-- The devices that are not freed are on the list. -/
  devices : s.freed ++ s.devList = s.main.attached cfg.numCpus
  /-- The threads created. -/
  created : s.created = s.main.created cfg.numCpus
  /-- The timer has been started. -/
  started : s.timerStarted = true ↔ 3 ≤ s.main.rank
  /-- No thread has been given `NULL`. -/
  ids : ∀ d ∈ s.main.attached cfg.numCpus, s.timerId d = some d
  /-- No device is freed before the timer has been waited for. -/
  unfreed : s.main.rank ≤ 8 → s.freed = []
  /-- Before the timer starts the threads do nothing. -/
  building : s.main.rank < 3 → ∃ dev, s.threads = initial cfg ⟨0, false, .top, dev⟩ ∧
    ∀ d ∈ s.devList, dev d = Timer.attachEvent
  /-- Then they go through a run of the simulator. -/
  running : 3 ≤ s.main.rank → s.main.rank ≤ 7 → ∃ as, s.threads = simulate cfg as
  /-- The timer is stopped at the end of it. -/
  stopped : 8 ≤ s.main.rank → ∃ as, s.threads = { simulate cfg as with clock := s.threads.clock }
  /-- A thread that has been waited for has exited. -/
  joined : ∀ d, s.main.Joined d → Exited s.threads d
  /-- So has the timer. -/
  timer : 9 ≤ s.main.rank → s.threads.clock.timer = .exited
  /-- Nothing is left on the list in the end. -/
  emptied : s.main = .returned → s.devList = []

variable {s s' : Whole cfg} {t t' : OsState cfg} {a : OsTurn cfg}

theorem orderly_initial (junk : Party cfg.numCpus → Timer.Device) :
    Orderly (wholeInitial cfg junk) where
  devices := by simp [wholeInitial, MainLoc.attached]
  created := rfl
  started := by simp [wholeInitial, MainLoc.rank]
  ids := by simp [wholeInitial, MainLoc.attached]
  unfreed := fun _ => rfl
  building := fun _ => ⟨junk, rfl, by simp [wholeInitial]⟩
  running := by simp [wholeInitial, MainLoc.rank]
  stopped := by simp [wholeInitial, MainLoc.rank]
  joined := fun d h => by cases d <;> exact h.elim
  timer := by simp [wholeInitial, MainLoc.rank]
  emptied := fun _ => rfl

/-! ### The main thread's steps -/

theorem reverse_take_succ {n i : ℕ} (h : i < n) :
    ((List.finRange n).take (i + 1)).reverse = ⟨i, h⟩ :: ((List.finRange n).take i).reverse := by
  rw [List.take_succ_eq_append_getElem (by simpa using h), List.reverse_append]
  simp

theorem take_finRange {n i : ℕ} (h : ¬ i < n) : (List.finRange n).take i = List.finRange n :=
  List.take_of_length_le (by simpa using h)

/-- The main thread goes on, and nothing else changes. -/
theorem Orderly.goTo (h : Orderly s) {l : MainLoc}
    (hattached : l.attached cfg.numCpus = s.main.attached cfg.numCpus)
    (hcreated : l.created cfg.numCpus = s.main.created cfg.numCpus)
    (hrank : (3 ≤ l.rank ↔ 3 ≤ s.main.rank) ∧ (8 ≤ l.rank ↔ 8 ≤ s.main.rank) ∧
      s.main.rank ≤ l.rank)
    (hjoined : ∀ d, l.Joined d → Exited s.threads d)
    (htimer : 9 ≤ l.rank → s.threads.clock.timer = .exited)
    (hempty : l = .returned → s.devList = []) : Orderly { s with main := l } := by
  obtain ⟨hstart, hstop, hle⟩ := hrank
  exact {
    devices := h.devices.trans hattached.symm
    created := h.created.trans hcreated.symm
    started := h.started.trans hstart.symm
    ids := by
      show ∀ d ∈ l.attached cfg.numCpus, _
      rw [hattached]
      exact h.ids
    unfreed := fun hl => h.unfreed (hle.trans hl)
    building := fun hl => h.building (by have : l.rank < 3 := hl; omega)
    running := fun hl hl' => h.running (hstart.mp hl) (by have : l.rank ≤ 7 := hl'; omega)
    stopped := fun hl => h.stopped (hstop.mp hl)
    joined := hjoined
    timer := htimer
    emptied := hempty }

/-- The main thread attaches a device. -/
theorem Orderly.attach (h : Orderly s) {l : MainLoc} (hrank : s.main.rank < 3) (hl : l.rank < 3)
    {d : Party cfg.numCpus}
    (hattached : l.attached cfg.numCpus = d :: s.main.attached cfg.numCpus)
    (hcreated : l.created cfg.numCpus = s.main.created cfg.numCpus)
    (hjoined : ∀ d, ¬ l.Joined (d : Party cfg.numCpus)) :
    Orderly { attachEvent d s with main := l } := by
  have hstarted : s.timerStarted = false := by
    rw [← Bool.not_eq_true, h.started]
    omega
  have hfreed := h.unfreed (by omega)
  obtain ⟨dev, hthreads, hdev⟩ := h.building hrank
  have hdevices := h.devices
  rw [hfreed, List.nil_append] at hdevices
  rw [attachEvent, hstarted]
  exact {
    devices := by
      show s.freed ++ d :: s.devList = l.attached cfg.numCpus
      rw [hfreed, List.nil_append, hdevices, hattached]
    created := h.created.trans hcreated.symm
    started := iff_of_false (by simp) (by show ¬ 3 ≤ l.rank; omega)
    ids := by
      show ∀ e ∈ l.attached cfg.numCpus, Function.update s.timerId d (some d) e = some e
      intro e he
      by_cases hed : e = d
      · rw [hed, Function.update_self]
      · rw [Function.update_of_ne hed]
        rw [hattached] at he
        exact h.ids e ((List.mem_cons.mp he).resolve_left hed)
    unfreed := fun _ => hfreed
    building := by
      intro _
      refine ⟨Function.update dev d Timer.attachEvent, ?_, ?_⟩
      · show ({ s.threads with clock := _ } : OsState cfg) = _
        rw [hthreads]
        rfl
      · show ∀ e ∈ d :: s.devList, _
        intro e he
        by_cases hed : e = d
        · rw [hed, Function.update_self]
        · rw [Function.update_of_ne hed]
          exact hdev e ((List.mem_cons.mp he).resolve_left hed)
    running := fun hle => absurd hle (by show ¬ 3 ≤ l.rank; omega)
    stopped := fun hle => absurd hle (by show ¬ 8 ≤ l.rank; omega)
    joined := fun e he => absurd he (hjoined e)
    timer := fun hle => absurd hle (by show ¬ 9 ≤ l.rank; omega)
    emptied := fun hret => absurd (congrArg MainLoc.rank hret) (by show l.rank ≠ 10; omega) }

/-- The timer starts with all devices attached. -/
theorem Orderly.startTimer (h : Orderly s) (hmain : s.main = .startTimer) :
    Orderly { s with timerStarted := true, main := .createLd } := by
  have hrank : s.main.rank = 2 := by rw [hmain]; rfl
  have hfreed := h.unfreed (by omega)
  obtain ⟨dev, hthreads, hdev⟩ := h.building (by omega)
  have hdevices := h.devices
  rw [hmain] at hdevices
  have hlist : s.devList = parties cfg.numCpus := by rwa [hfreed, List.nil_append] at hdevices
  have hall : dev = fun _ => Timer.attachEvent := by
    funext d
    exact hdev d (hlist ▸ mem_parties d)
  exact {
    devices := hdevices
    created := by rw [h.created, hmain]; rfl
    started := by simp [MainLoc.rank]
    ids := by
      have hids := h.ids
      rwa [hmain] at hids
    unfreed := fun _ => hfreed
    building := by simp [MainLoc.rank]
    running := fun _ _ => ⟨[], by show s.threads = _; rw [hthreads, hall]; rfl⟩
    stopped := by simp [MainLoc.rank]
    joined := fun _ hd => hd.elim
    timer := by simp [MainLoc.rank]
    emptied := by simp }

/-- The main thread creates a thread. -/
theorem Orderly.create (h : Orderly s) {l : MainLoc} {d : Party cfg.numCpus}
    (hattached : l.attached cfg.numCpus = s.main.attached cfg.numCpus)
    (hcreated : l.created cfg.numCpus = d :: s.main.created cfg.numCpus)
    (hrank : 3 ≤ s.main.rank ∧ s.main.rank ≤ 7 ∧ 3 ≤ l.rank ∧ l.rank ≤ 7)
    (hjoined : ∀ d, ¬ l.Joined (d : Party cfg.numCpus)) :
    Orderly { s with created := d :: s.created, main := l } := by
  obtain ⟨hrank, hrank', hl, hl'⟩ := hrank
  exact {
    devices := h.devices.trans hattached.symm
    created := by rw [h.created]; exact hcreated.symm
    started := h.started.trans (iff_of_true hrank hl)
    ids := by
      show ∀ d ∈ l.attached cfg.numCpus, _
      rw [hattached]
      exact h.ids
    unfreed := fun _ => h.unfreed (by omega)
    building := fun hlt => absurd hlt (by show ¬ l.rank < 3; omega)
    running := fun _ _ => h.running hrank hrank'
    stopped := fun hle => absurd hle (by show ¬ 8 ≤ l.rank; omega)
    joined := fun d hd => absurd hd (hjoined d)
    timer := fun hle => absurd hle (by show ¬ 9 ≤ l.rank; omega)
    emptied := fun hret => absurd (congrArg MainLoc.rank hret) (by show l.rank ≠ 10; omega) }

/-- The timer is told to stop when the other threads have exited. -/
theorem Orderly.stopTimer (h : Orderly s) (hmain : s.main = .stopTimer) :
    Orderly { s with threads := Simulator.stopTimer s.threads, main := .joinTimer } := by
  have hrank : s.main.rank = 7 := by rw [hmain]; rfl
  obtain ⟨as, has⟩ := h.running (by omega) (by omega)
  have hjoined := h.joined
  rw [hmain] at hjoined
  exact {
    devices := by rw [h.devices, hmain]; rfl
    created := by rw [h.created, hmain]; rfl
    started := h.started.trans (iff_of_true (by omega) (by show 3 ≤ 8; omega))
    ids := by
      have hids := h.ids
      rwa [hmain] at hids
    unfreed := fun _ => h.unfreed (by omega)
    building := by simp [MainLoc.rank]
    running := by simp [MainLoc.rank]
    stopped := fun _ => ⟨as, by show Simulator.stopTimer s.threads = _; rw [← has]; rfl⟩
    joined := fun d _ => by
      have hd := hjoined d trivial
      cases d <;> exact hd
    timer := by simp [MainLoc.rank]
    emptied := by simp }

/-- The first device of the list is freed. -/
theorem Orderly.free (h : Orderly s) (hmain : s.main = .free) {d : Party cfg.numCpus}
    {devs : List (Party cfg.numCpus)} (hlist : s.devList = d :: devs) :
    Orderly { s with devList := devs, freed := s.freed ++ [d] } where
  devices := by
    rw [← h.devices, hlist, List.append_assoc]
    rfl
  created := h.created
  started := h.started
  ids := h.ids
  unfreed := by simp [hmain, MainLoc.rank]
  building := by simp [hmain, MainLoc.rank]
  running := by simp [hmain, MainLoc.rank]
  stopped := h.stopped
  joined := h.joined
  timer := h.timer
  emptied := by simp [hmain]

theorem Orderly.mainRoutine (h : Orderly s) (hs : Simulator.mainRoutine s = some s') :
    Orderly s' := by
  rw [Simulator.mainRoutine] at hs
  cases hmain : s.main with
  | attach i =>
    simp only [hmain, Option.some.injEq] at hs
    subst hs
    split_ifs with hi
    · refine h.attach (by simp [hmain, MainLoc.rank]) (by simp [MainLoc.rank]) ?_
        (by simp [hmain, MainLoc.created]) (by simp [MainLoc.Joined])
      simp [hmain, MainLoc.attached, reverse_take_succ hi]
    · refine h.goTo ?_ (by simp [hmain, MainLoc.created]) (by simp [hmain, MainLoc.rank])
        (by simp [MainLoc.Joined]) (by simp [MainLoc.rank]) (by simp)
      simp [hmain, MainLoc.attached, take_finRange hi]
  | attachLd =>
    simp only [hmain, Option.some.injEq] at hs
    subst hs
    exact h.attach (by simp [hmain, MainLoc.rank]) (by simp [MainLoc.rank])
      (by simp [hmain, MainLoc.attached, parties, Simulator.attached])
      (by simp [hmain, MainLoc.created]) (by simp [MainLoc.Joined])
  | startTimer =>
    simp only [hmain, Option.some.injEq] at hs
    subst hs
    exact h.startTimer hmain
  | createLd =>
    simp only [hmain, Option.some.injEq] at hs
    subst hs
    exact h.create (by simp [hmain, MainLoc.attached]) (by simp [hmain, MainLoc.created])
      (by simp [hmain, MainLoc.rank]) (by simp [MainLoc.Joined])
  | create i =>
    simp only [hmain, Option.some.injEq] at hs
    subst hs
    split_ifs with hi
    · refine h.create (by simp [hmain, MainLoc.attached]) ?_ (by simp [hmain, MainLoc.rank])
        (by simp [MainLoc.Joined])
      simp [hmain, MainLoc.created, reverse_take_succ hi]
    · refine h.goTo (by simp [hmain, MainLoc.attached]) ?_ (by simp [hmain, MainLoc.rank]) ?_
        (by simp [MainLoc.rank]) (by simp)
      · simp [hmain, MainLoc.created, take_finRange hi]
      · rintro (c | _) hd
        · exact absurd hd (Nat.not_lt_zero c)
        · exact hd.elim
  | join i =>
    simp only [hmain] at hs
    have hjoined := h.joined
    rw [hmain] at hjoined
    split_ifs at hs with hi hexited
    · cases hs
      refine h.goTo (by simp [hmain, MainLoc.attached]) (by simp [hmain, MainLoc.created])
        (by simp [hmain, MainLoc.rank]) ?_ (by simp [MainLoc.rank]) (by simp)
      rintro (c | _) hd
      · rcases Nat.lt_succ_iff_lt_or_eq.mp hd with hlt | heq
        · exact hjoined (.cpu c) hlt
        · obtain rfl : c = ⟨i, hi⟩ := Fin.ext heq
          exact hexited
      · exact hd.elim
    · cases hs
      refine h.goTo (by simp [hmain, MainLoc.attached]) (by simp [hmain, MainLoc.created])
        (by simp [hmain, MainLoc.rank]) ?_ (by simp [MainLoc.rank]) (by simp)
      rintro (c | _) hd
      · exact hjoined (.cpu c) (c.isLt.trans_le (not_lt.mp hi))
      · exact hd.elim
  | joinLd =>
    simp only [hmain, Option.ite_none_right_eq_some, Option.some.injEq] at hs
    obtain ⟨hexited, rfl⟩ := hs
    refine h.goTo (by simp [hmain, MainLoc.attached]) (by simp [hmain, MainLoc.created])
      (by simp [hmain, MainLoc.rank]) ?_ (by simp [MainLoc.rank]) (by simp)
    have hjoined := h.joined
    rw [hmain] at hjoined
    rintro (c | _) -
    · exact hjoined (.cpu c) trivial
    · exact hexited
  | stopTimer =>
    simp only [hmain, Option.some.injEq] at hs
    subst hs
    exact h.stopTimer hmain
  | joinTimer =>
    simp only [hmain] at hs
    have hjoined := h.joined
    rw [hmain] at hjoined
    split at hs
    next htimer =>
      cases hs
      exact h.goTo (by simp [hmain, MainLoc.attached]) (by simp [hmain, MainLoc.created])
        (by simp [hmain, MainLoc.rank]) (fun d _ => hjoined d trivial) (fun _ => htimer) (by simp)
    next => cases hs
  | free =>
    simp only [hmain] at hs
    have hjoined := h.joined
    rw [hmain] at hjoined
    split at hs
    next hlist =>
      cases hs
      exact h.goTo (by simp [hmain, MainLoc.attached]) (by simp [hmain, MainLoc.created])
        (by simp [hmain, MainLoc.rank]) (fun d _ => hjoined d trivial)
        (fun _ => h.timer (by simp [hmain, MainLoc.rank])) fun _ => hlist
    next d devs hlist =>
      cases hs
      have hfree := h.free hmain hlist
      rwa [hmain] at hfree
  | returned => simp [hmain] at hs

/-! ### The threads' steps -/

/-- When all threads have exited, only the timer moves. -/
theorem threadRoutine_of_exited (hs : threadRoutine a s = some s')
    (h : ∀ d, Exited s.threads d) :
    ∃ i devs clock, a = .clock i ∧ devices s.devList = some devs ∧
      Timer.internal devs i s.threads.clock = some clock ∧
        s' = { s with threads := { s.threads with clock := clock } } := by
  rw [threadRoutine] at hs
  split at hs
  · cases hs
  next devs hdevs =>
    split_ifs at hs
    obtain ⟨t, ht, rfl⟩ := Option.map_eq_some_iff.mp hs
    cases a with
    | cpu c =>
      rw [step, Exited.no_turn (h (.cpu c))] at ht
      cases ht
    | ld =>
      have hld : s.threads.ld = .exited := h .ld
      rw [step, ldRoutine, hld] at ht
      cases ht
    | clock i =>
      obtain ⟨clock, hclock, rfl⟩ := Option.map_eq_some_iff.mp ht
      exact ⟨i, devs, clock, rfl, hdevs, hclock, rfl⟩

theorem devices_parties {n : ℕ} : devices (parties n) = some (attached n) := by
  have hall : (parties n).Nodup ∧ (∀ c, .cpu c ∈ parties n) ∧ .ld ∈ parties n :=
    ⟨(attached n).nodup, fun c => mem_parties (.cpu c), mem_parties .ld⟩
  rw [devices, dif_pos hall]
  rfl

/-- A timer that has exited stays where it is. -/
theorem exited_of_internal {D : Type*} [DecidableEq D] {devs : Timer.DevList D}
    {k : Timer.Internal D} {x x' : Timer.State D} (hs : Timer.internal devs k x = some x')
    (h : x.timer = .exited) : x'.timer = .exited := by
  cases k with
  | timer => simp [Timer.internal, Timer.timerRoutine, h] at hs
  | wakeTimer => simp [Timer.internal, h] at hs
  | sleep d =>
    simp only [Timer.internal, Option.ite_none_right_eq_some, Option.some.injEq] at hs
    obtain ⟨-, rfl⟩ := hs
    exact h
  | wake d =>
    simp only [Timer.internal, Option.ite_none_right_eq_some, Option.some.injEq] at hs
    obtain ⟨-, rfl⟩ := hs
    exact h

theorem simulate_concat {as : List (OsTurn cfg)} (hs : step (osClock cfg) a (simulate cfg as) = some t) :
    simulate cfg (as ++ [a]) = t := by
  rw [simulate, after, run_concat]
  exact stutter_of_some hs

/-- No thread is there before the timer starts. -/
theorem Orderly.started_of_there (h : Orderly s) (ha : There s a) : 3 ≤ s.main.rank := by
  by_contra hlt
  have hcreated : s.created = [] := by
    rw [h.created]
    cases hmain : s.main <;> simp_all [MainLoc.rank, MainLoc.created]
  cases a with
  | clock k => exact hlt (h.started.mp ha)
  | cpu c => simp [There, hcreated] at ha
  | ld => simp [There, hcreated] at ha

/-- The timer goes through all devices. -/
theorem Orderly.devices_eq (h : Orderly s) (hrank : 3 ≤ s.main.rank) (hrank' : s.main.rank ≤ 8) :
    Simulator.devices s.devList = some (attached cfg.numCpus) := by
  have hdevices := h.devices
  rw [h.unfreed hrank', List.nil_append] at hdevices
  rw [hdevices, ← devices_parties]
  cases hmain : s.main <;> simp_all [MainLoc.rank, MainLoc.attached]

theorem Orderly.exited (h : Orderly s) (hrank : 7 ≤ s.main.rank) (d : Party cfg.numCpus) :
    Exited s.threads d := by
  refine h.joined d ?_
  cases hmain : s.main <;> simp_all [MainLoc.rank, MainLoc.Joined]

/-- A step of a thread: that of the simulator before the main thread waits for the timer, and one
of the timer's from then on. -/
theorem Orderly.threadRoutine (h : Orderly s) (hs : Simulator.threadRoutine a s = some s') :
    Orderly s' := by
  by_cases hstop : s.main.rank ≤ 7
  · rw [Simulator.threadRoutine] at hs
    split at hs
    · cases hs
    next devs hdevs =>
      split_ifs at hs with hthere
      obtain ⟨t, ht, rfl⟩ := Option.map_eq_some_iff.mp hs
      have hstarted := h.started_of_there hthere
      obtain ⟨as, has⟩ := h.running hstarted hstop
      obtain rfl := Option.some.inj (hdevs.symm.trans (h.devices_eq hstarted (by omega)))
      change step (osClock cfg) a s.threads = some t at ht
      have hinv : Inv s.threads := has ▸ inv_after (osClock cfg) Timer.startTimer as
      exact {
        devices := h.devices
        created := h.created
        started := h.started
        ids := h.ids
        unfreed := h.unfreed
        building := fun hlt => absurd hlt (not_lt.mpr hstarted)
        running := fun _ _ => ⟨as ++ [a], (simulate_concat (has ▸ ht)).symm⟩
        stopped := fun hle => absurd (show 8 ≤ s.main.rank from hle) (by omega)
        joined := fun d hd => (h.joined d hd).step hinv ht
        timer := fun hle => absurd (show 9 ≤ s.main.rank from hle) (by omega)
        emptied := h.emptied }
  · obtain ⟨as, has⟩ := h.stopped (by omega)
    obtain ⟨i, devs, clock, rfl, -, hclock, rfl⟩ := threadRoutine_of_exited hs (h.exited (by omega))
    exact {
      devices := h.devices
      created := h.created
      started := h.started
      ids := h.ids
      unfreed := h.unfreed
      building := fun hlt => absurd (show s.main.rank < 3 from hlt) (by omega)
      running := fun _ hle => absurd (show s.main.rank ≤ 7 from hle) hstop
      stopped := fun _ => ⟨as, by rw [has]⟩
      joined := fun d hd => by
        have hexited := h.joined d hd
        cases d <;> exact hexited
      timer := fun hle => exited_of_internal hclock (h.timer hle)
      emptied := h.emptied }

theorem Orderly.step {a : Option (OsTurn cfg)} (h : Orderly s) (hs : wholeStep a s = some s') :
    Orderly s' := by
  cases a with
  | none => exact h.mainRoutine hs
  | some a => exact h.threadRoutine hs

theorem orderly_after (junk : Party cfg.numCpus → Timer.Device) (as : List (Option (OsTurn cfg))) :
    Orderly (wholeAfter cfg junk as) :=
  stutter_invariant (fun _ _ _ h hs => h.step hs) as (orderly_initial junk)

/-- **No device is used after it has been freed, and none is lost.** In any run of the main thread,
the threads it creates and the timer: no thread is given `NULL` for its device; what the threads
do is a run of the simulator, but for the timer once `main` has told it to stop; the devices freed
and those on the list are, in order, those attached, each once; when one has been freed, all threads
and the timer have exited; and when `main` has returned, all have been freed. -/
theorem orderly (cfg : Config ι) (junk : Party cfg.numCpus → Timer.Device)
    (as : List (Option (OsTurn cfg))) :
    let s := wholeAfter cfg junk as
    (∀ d ∈ s.created, s.timerId d = some d) ∧
      (s.timerStarted = true →
        (∃ bs, s.threads = { simulate cfg bs with clock := s.threads.clock } ∧
          (s.main.BeforeStop → s.threads = simulate cfg bs)) ∧
        s.freed ++ s.devList = parties cfg.numCpus) ∧
      (s.freed ≠ [] → s.threads.clock.timer = .exited ∧ ∀ d, Exited s.threads d) ∧
      (s.main = .returned → s.freed = parties cfg.numCpus) := by
  intro s
  have h : Orderly s := orderly_after junk as
  have hattached : 3 ≤ s.main.rank → s.main.attached cfg.numCpus = parties cfg.numCpus := by
    cases hmain : s.main <;> simp [MainLoc.rank, MainLoc.attached]
  refine ⟨?_, ?_, ?_, ?_⟩
  · intro d hd
    have hrank : 3 ≤ s.main.rank := by
      by_contra hlt
      rw [h.created] at hd
      cases hmain : s.main <;> simp_all [MainLoc.rank, MainLoc.created]
    exact h.ids d (hattached hrank ▸ mem_parties d)
  · intro hstarted
    have hrank := h.started.mp hstarted
    refine ⟨?_, h.devices.trans (hattached hrank)⟩
    rw [MainLoc.beforeStop_iff]
    by_cases hstop : s.main.rank ≤ 7
    · obtain ⟨bs, hbs⟩ := h.running hrank hstop
      exact ⟨bs, by rw [← hbs], fun _ => hbs⟩
    · obtain ⟨bs, hbs⟩ := h.stopped (by omega)
      exact ⟨bs, hbs, fun hle => absurd hle hstop⟩
  · intro hfreed
    have hrank : 9 ≤ s.main.rank := by
      by_contra hlt
      exact hfreed (h.unfreed (by omega))
    exact ⟨h.timer hrank, h.exited (by omega)⟩
  · intro hmain
    have hdevices := h.devices
    rwa [h.emptied hmain, List.append_nil, hattached (by rw [hmain]; decide)] at hdevices

end Ossim.Simulator
