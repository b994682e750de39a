import Ossim.Timer.Protocol

/-!
# What a step does to the devices

A call of `next_slot` or `detach_event` changes the device that makes it and no other. The
steps that are no call's start or end change no more of a device than its `done` and how it
waits: which devices are outside `next_slot`, which are inside it and which have detached,
and how often each has called, stays (`internal_spec`).
-/

namespace Ossim.Timer

variable {D : Type*}

/-- Where the thread of a device is, however it waits there. -/
inductive Phase where
  /-- Outside `next_slot` and `detach_event`. -/
  | outside
  /-- Inside `next_slot`. -/
  | inside
  /-- Past `detach_event`. -/
  | detached
  deriving DecidableEq

/-- The phase of a place. -/
def Loc.phase : Loc → Phase
  | .working => .outside
  | .testing | .asleep => .inside
  | .detached => .detached

/-- The phase of a device. -/
def Device.phase (x : Device) : Phase := x.loc.phase

theorem Device.phase_eq_outside_iff {x : Device} : x.phase = .outside ↔ x.loc = .working := by
  rw [Device.phase]
  cases x.loc <;> simp [Loc.phase]

theorem Device.phase_eq_detached_iff {x : Device} : x.phase = .detached ↔ x.loc = .detached := by
  rw [Device.phase]
  cases x.loc <;> simp [Loc.phase]

variable [DecidableEq D] {s s' : State D} {d : D}

/-- A signal to the timer moves the timer thread, if anything. -/
theorem signalEvent_frame (d : D) (s : State D) :
    (signalEvent d s).dev = s.dev ∧ (signalEvent d s).time = s.time ∧
      (signalEvent d s).timerStop = s.timerStop := by
  unfold signalEvent
  split
  · split_ifs <;> exact ⟨rfl, rfl, rfl⟩
  · exact ⟨rfl, rfl, rfl⟩

/-- What a change of one device leaves of it, it leaves of every device. -/
theorem setDev_congr {β : Type*} (f : Device → β) {x : Device} (h : f x = f (s.dev d)) (e : D) :
    f ((setDev s d x).dev e) = f (s.dev e) := by
  by_cases hed : e = d
  · subst hed
    rw [setDev_self]
    exact h
  · rw [setDev_of_ne s x hed]

/-- `next_slot` is called from outside, and leads inside. -/
theorem nextSlot_spec (h : nextSlot d s = some s') :
    (s.dev d).phase = .outside ∧ (s'.dev d).phase = .inside ∧
      (s'.dev d).started = (s.dev d).started + 1 ∧ (∀ e, e ≠ d → s'.dev e = s.dev e) ∧
        s'.time = s.time ∧ s'.timerStop = s.timerStop := by
  simp only [nextSlot, Option.ite_none_right_eq_some, Option.some.injEq] at h
  obtain ⟨hloc, rfl⟩ := h
  obtain ⟨hdev, htime, hstop⟩ := signalEvent_frame d
    (setDev s d { s.dev d with done := true, loc := .testing, started := (s.dev d).started + 1 })
  rw [hdev, htime, hstop, setDev_self]
  refine ⟨Device.phase_eq_outside_iff.mpr hloc, rfl, rfl, ?_, rfl, rfl⟩
  intro e he
  exact setDev_of_ne s _ he

/-- A call of `next_slot` returns to the outside. -/
theorem leave_spec (h : leave d s = some s') :
    (s.dev d).phase = .inside ∧ (s'.dev d).phase = .outside ∧
      (s'.dev d).started = (s.dev d).started ∧ (∀ e, e ≠ d → s'.dev e = s.dev e) ∧
        s'.time = s.time ∧ s'.timerStop = s.timerStop := by
  simp only [leave, Option.ite_none_right_eq_some, Option.some.injEq] at h
  obtain ⟨⟨hloc, -⟩, rfl⟩ := h
  rw [setDev_self]
  refine ⟨?_, rfl, rfl, ?_, rfl, rfl⟩
  · rw [Device.phase, hloc]
    rfl
  · intro e he
    exact setDev_of_ne s _ he

/-- `detach_event` is called from outside, and is the last a device does. -/
theorem detachEvent_spec (h : detachEvent d s = some s') :
    (s.dev d).phase = .outside ∧ (s'.dev d).phase = .detached ∧
      (s'.dev d).started = (s.dev d).started ∧ (∀ e, e ≠ d → s'.dev e = s.dev e) ∧
        s'.time = s.time ∧ s'.timerStop = s.timerStop := by
  simp only [detachEvent, Option.ite_none_right_eq_some, Option.some.injEq] at h
  obtain ⟨hloc, rfl⟩ := h
  obtain ⟨hdev, htime, hstop⟩ :=
    signalEvent_frame d (setDev s d { s.dev d with fsh := true, loc := .detached })
  rw [hdev, htime, hstop, setDev_self]
  refine ⟨Device.phase_eq_outside_iff.mpr hloc, rfl, rfl, ?_, rfl, rfl⟩
  intro e he
  exact setDev_of_ne s _ he

/-- A change of a device that leaves its phase and its calls leaves those of all devices. -/
theorem phase_setDev {x : Device} (hphase : x.phase = (s.dev d).phase)
    (hstarted : x.started = (s.dev d).started) (e : D) :
    ((setDev s d x).dev e).phase = (s.dev e).phase ∧
      ((setDev s d x).dev e).started = (s.dev e).started :=
  ⟨setDev_congr Device.phase hphase e, setDev_congr Device.started hstarted e⟩

/-- **The steps that are no call's start or end** leave every device in its phase, and time does
not go back. -/
theorem internal_spec {devs : DevList D} {k : Internal D} (h : internal devs k s = some s') :
    (∀ e, (s'.dev e).phase = (s.dev e).phase ∧ (s'.dev e).started = (s.dev e).started) ∧
      s.time ≤ s'.time ∧ s'.timerStop = s.timerStop := by
  cases k with
  | timer =>
    obtain ⟨time, stop, t, dev⟩ := s
    rcases t with _ | ⟨_ | ⟨d, temp⟩, fsh, event⟩ | _ | ⟨_ | ⟨d, temp⟩, fsh, event⟩ | _ <;>
      simp only [internal, timerRoutine, reduceCtorEq, Option.some.injEq] at h <;> subst h
    · split_ifs <;> exact ⟨fun _ => ⟨rfl, rfl⟩, le_rfl, rfl⟩
    · exact ⟨fun _ => ⟨rfl, rfl⟩, Nat.le_succ _, rfl⟩
    · split_ifs <;> exact ⟨fun _ => ⟨rfl, rfl⟩, le_rfl, rfl⟩
    · exact ⟨fun _ => ⟨rfl, rfl⟩, le_rfl, rfl⟩
    · -- the device is let go, and wakes if it was asleep
      refine ⟨phase_setDev ?_ ?_, le_rfl, rfl⟩
      · simp only [signalTimer]
        split_ifs with hloc
        · rw [Device.phase, Device.phase, hloc]
          rfl
        · rfl
      · simp only [signalTimer]
        split_ifs <;> rfl
  | wakeTimer =>
    simp only [internal] at h
    split at h
    · obtain rfl := Option.some.inj h
      exact ⟨fun _ => ⟨rfl, rfl⟩, le_rfl, rfl⟩
    · cases h
  | sleep d =>
    simp only [internal, Option.ite_none_right_eq_some, Option.some.injEq] at h
    obtain ⟨⟨hloc, -⟩, rfl⟩ := h
    refine ⟨phase_setDev ?_ rfl, le_rfl, rfl⟩
    rw [Device.phase, Device.phase, hloc]
    rfl
  | wake d =>
    simp only [internal, Option.ite_none_right_eq_some, Option.some.injEq] at h
    obtain ⟨hloc, rfl⟩ := h
    refine ⟨phase_setDev ?_ rfl, le_rfl, rfl⟩
    rw [Device.phase, Device.phase, hloc]
    rfl

end Ossim.Timer
