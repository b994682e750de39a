import Ossim.Timer.Protocol

/-!
# The devices keep in step

Whatever the order of the steps of the timer and of its devices, a device that has not
detached is in the current slot or just leaving the last one: it has started `_time` or
`_time + 1` calls of `next_slot` and completed `_time - 1` or `_time` (`lockStep`). The
timer counts a slot only when every such device waits in `next_slot`.

The invariant says which of five situations a device can be in, and this depends on how
far the timer has come through its two loops (`Fits`): a device the first loop has passed
has arrived or has detached, and stays so until the second loop reaches it.
-/

namespace Ossim.Timer

open Machine

/-! ### The situation of a device -/

/-- The device has detached. -/
def Detached (x : Device) : Prop := x.loc = .detached ∧ x.fsh = true

/-- The device works in slot `T`. -/
def Working (T : ℕ) (x : Device) : Prop :=
  x.loc = .working ∧ x.done = false ∧ x.fsh = false ∧ x.started = T ∧ x.completed = T

/-- The device's thread is in `next_slot`. -/
def InNextSlot (x : Device) : Prop := x.loc = .testing ∨ x.loc = .asleep

/-- The device has done its work in slot `T` and waits for the next. -/
def Arrived (T : ℕ) (x : Device) : Prop :=
  InNextSlot x ∧ x.done = true ∧ x.fsh = false ∧ x.started = T + 1 ∧ x.completed = T

/-- Slot `T` has begun, and the timer has not let the device go yet. -/
def Held (T : ℕ) (x : Device) : Prop :=
  InNextSlot x ∧ x.done = true ∧ x.fsh = false ∧ x.started = T ∧ x.completed + 1 = T

/-- Slot `T` has begun and the timer has let the device go. -/
def LetGo (T : ℕ) (x : Device) : Prop :=
  x.loc = .testing ∧ x.done = false ∧ x.fsh = false ∧ x.started = T ∧ x.completed + 1 = T

/-- The device is not held back in slot `T`. -/
def Current (T : ℕ) (x : Device) : Prop := Detached x ∨ Working T x ∨ Arrived T x ∨ LetGo T x

/-- The timer need not wait for the device in slot `T` any more. -/
def Checked (T : ℕ) (x : Device) : Prop := Detached x ∨ Arrived T x

/-- The timer has still to let the device go in slot `T`. -/
def Pending (T : ℕ) (x : Device) : Prop := Detached x ∨ Held T x

variable {D : Type*} {T : ℕ} {x : Device}

theorem Checked.current (h : Checked T x) : Current T x := h.imp_right fun h => .inr (.inl h)

/-- When the slot is counted, the devices checked become those to be let go. -/
theorem Checked.pending (h : Checked T x) : Pending (T + 1) x := by
  rcases h with h | ⟨hloc, hdone, hfsh, hst, hco⟩
  · exact .inl h
  · exact .inr ⟨hloc, hdone, hfsh, hst, by omega⟩

theorem InNextSlot.not_working (h : InNextSlot x) : x.loc ≠ .working := by
  rcases h with h | h <;> rw [h] <;> exact nofun

theorem Working.nextSlot (h : Working T x) :
    Arrived T { x with done := true, loc := .testing, started := x.started + 1 } := by
  obtain ⟨-, -, hfsh, hst, hco⟩ := h
  exact ⟨.inl rfl, rfl, hfsh, congrArg (· + 1) hst, hco⟩

theorem LetGo.leave (h : LetGo T x) :
    Working T { x with loc := .working, completed := x.completed + 1 } := by
  obtain ⟨-, hdone, hfsh, hst, hco⟩ := h
  exact ⟨rfl, hdone, hfsh, hst, hco⟩

/-- Letting a device go. -/
theorem Pending.release (h : Pending T x) : Current T (signalTimer { x with done := false }) := by
  rcases h with ⟨hloc, hfsh⟩ | ⟨hloc | hloc, -, hfsh, hst, hco⟩
  · left
    rw [signalTimer, if_neg (by simp [hloc])]
    exact ⟨hloc, hfsh⟩
  · refine .inr (.inr (.inr ?_))
    rw [signalTimer, if_neg (by simp [hloc])]
    exact ⟨hloc, rfl, hfsh, hst, hco⟩
  · refine .inr (.inr (.inr ?_))
    rw [signalTimer, if_pos hloc]
    exact ⟨rfl, rfl, hfsh, hst, hco⟩

/-- A device the timer finds done or finished has been checked. -/
theorem Current.checked (h : Current T x) (hx : (!x.done && !x.fsh) = false) : Checked T x := by
  rcases h with h | ⟨-, hdone, hfsh, -, -⟩ | h | ⟨-, hdone, hfsh, -, -⟩
  · exact .inl h
  · rw [hdone, hfsh] at hx; cases hx
  · exact .inr h
  · rw [hdone, hfsh] at hx; cases hx

/-! ### The invariant -/

variable [DecidableEq D]

/-- The situations device `d` can be in while the timer is where it is. -/
def Fits (T : ℕ) (t : TimerLoc D) (d : D) (x : Device) : Prop :=
  match t with
  | .top | .exited => Current T x
  | .scan temp _ _ => if d ∈ temp then Current T x else Checked T x
  | .asleep e temp _ _ => if d ∈ e :: temp then Current T x else Checked T x
  | .release temp _ _ => if d ∈ temp then Pending T x else Current T x

/-- The invariant. -/
structure Inv (s : State D) : Prop where
  /-- Every device is in a situation that fits. -/
  fits : ∀ d, Fits s.time s.timer d (s.dev d)
  /-- The second loop comes to a device once only. -/
  nodup : ∀ temp fsh event, s.timer = .release temp fsh event → temp.Nodup

theorem inv_startTimer : Inv (startTimer : State D) where
  fits := fun _ => .inr (.inl ⟨rfl, rfl, rfl, rfl, rfl⟩)
  nodup := nofun

variable {t : TimerLoc D} {d : D}

/-- A device fits in at least one of three ways, by its situation alone. -/
theorem Fits.cases (h : Fits T t d x) : Current T x ∨ Held T x := by
  cases t with
  | top => exact .inl h
  | exited => exact .inl h
  | scan temp fsh event =>
    simp only [Fits] at h
    split_ifs at h
    · exact .inl h
    · exact .inl h.current
  | asleep e temp fsh event =>
    simp only [Fits] at h
    split_ifs at h
    · exact .inl h
    · exact .inl h.current
  | release temp fsh event =>
    simp only [Fits] at h
    split_ifs at h
    · exact h.imp_left .inl
    · exact .inl h

/-- Where a device works or has been let go, the timer asks no more than that it is not
held back. -/
theorem Fits.of_current (h : Fits T t d x) (hx : Working T x ∨ LetGo T x) {y : Device}
    (hy : Current T y) :
    Fits T t d y := by
  have hloc : x.loc = .working ∨ x.done = false := hx.imp And.left fun h => h.2.1
  have hno : ¬ Checked T x := by
    rintro (h | h)
    · rcases hx with hx | hx <;> exact absurd (h.1.symm.trans hx.1) nofun
    · rcases hloc with hloc | hloc
      · exact h.1.not_working hloc
      · exact absurd (h.2.1.symm.trans hloc) nofun
  have hno' : ¬ Pending T x := by
    rintro (h | h)
    · exact hno (.inl h)
    · rcases hloc with hloc | hloc
      · exact h.1.not_working hloc
      · exact absurd (h.2.1.symm.trans hloc) nofun
  cases t with
  | top => exact hy
  | exited => exact hy
  | scan temp fsh event =>
    simp only [Fits] at h ⊢
    split_ifs at h ⊢
    · exact hy
    · exact absurd h hno
  | asleep e temp fsh event =>
    simp only [Fits] at h ⊢
    split_ifs at h ⊢
    · exact hy
    · exact absurd h hno
  | release temp fsh event =>
    simp only [Fits] at h ⊢
    split_ifs at h ⊢
    · exact absurd h hno'
    · exact hy

/-- Falling asleep in `next_slot` and waking up are no change of situation. -/
theorem Fits.of_done (h : Fits T t d x) (hdone : x.done = true) (hx : InNextSlot x) {l : Loc}
    (hl : l = .testing ∨ l = .asleep) : Fits T t d { x with loc := l } := by
  have hcur : Current T x → Arrived T { x with loc := l } := by
    rintro (h | h | h | h)
    · rcases hx with hx | hx <;> exact absurd (h.1.symm.trans hx) nofun
    · exact absurd h.1 hx.not_working
    · exact ⟨hl, h.2⟩
    · exact absurd (hdone.symm.trans h.2.1) nofun
  have hpen : Pending T x → Held T { x with loc := l } := by
    rintro (h | h)
    · rcases hx with hx | hx <;> exact absurd (h.1.symm.trans hx) nofun
    · exact ⟨hl, h.2⟩
  have hcur' : Current T x → Current T { x with loc := l } := fun h => .inr (.inr (.inl (hcur h)))
  cases t with
  | top => exact hcur' h
  | exited => exact hcur' h
  | scan temp fsh event =>
    simp only [Fits] at h ⊢
    split_ifs at h ⊢
    · exact hcur' h
    · exact .inr (hcur h.current)
  | asleep e temp fsh event =>
    simp only [Fits] at h ⊢
    split_ifs at h ⊢
    · exact hcur' h
    · exact .inr (hcur h.current)
  | release temp fsh event =>
    simp only [Fits] at h ⊢
    split_ifs at h ⊢
    · exact .inr (hpen h)
    · exact hcur' h

/-! ### A device moves -/

/-- A signal to the timer sends it back to its test, which changes nothing about what
fits. -/
theorem Inv.signalEvent {s : State D} (h : Inv s) (d : D) : Inv (signalEvent d s) := by
  unfold Timer.signalEvent
  split
  next e temp fsh event ht =>
    split_ifs with hed
    · subst hed
      refine ⟨?_, nofun⟩
      intro d
      have hd := h.fits d
      rwa [ht] at hd
    · exact h
  · exact h

/-- If a device changes and still fits, the invariant is kept. -/
theorem Inv.setDev {s : State D} (h : Inv s) {d : D} {x : Device} (hx : Fits s.time s.timer d x) :
    Inv (setDev s d x) where
  fits := by
    intro e
    by_cases hed : e = d
    · subst hed; rwa [setDev_self]
    · rw [setDev_of_ne s x hed]; exact h.fits e
  nodup := h.nodup

theorem Inv.working_of_loc {s : State D} (h : Inv s) {d : D} (hd : (s.dev d).loc = .working) :
    Working s.time (s.dev d) := by
  rcases (h.fits d).cases with (h | h | h | h) | h
  · exact absurd (hd.symm.trans h.1) nofun
  · exact h
  · exact absurd hd h.1.not_working
  · exact absurd (hd.symm.trans h.1) nofun
  · exact absurd hd h.1.not_working

theorem Inv.nextSlot {s s' : State D} (h : Inv s) {d : D} (hs : nextSlot d s = some s') : Inv s' := by
  simp only [Timer.nextSlot, Option.ite_none_right_eq_some, Option.some.injEq] at hs
  obtain ⟨hloc, rfl⟩ := hs
  have hw := h.working_of_loc hloc
  exact (h.setDev ((h.fits d).of_current (.inl hw) (.inr (.inr (.inl hw.nextSlot))))).signalEvent d

theorem Inv.detachEvent {s s' : State D} (h : Inv s) {d : D} (hs : detachEvent d s = some s') :
    Inv s' := by
  simp only [Timer.detachEvent, Option.ite_none_right_eq_some, Option.some.injEq] at hs
  obtain ⟨hloc, rfl⟩ := hs
  have hw := h.working_of_loc hloc
  exact (h.setDev ((h.fits d).of_current (.inl hw) (.inl ⟨rfl, rfl⟩))).signalEvent d

theorem Inv.leave {s s' : State D} (h : Inv s) {d : D} (hs : leave d s = some s') : Inv s' := by
  simp only [Timer.leave, Option.ite_none_right_eq_some, Option.some.injEq] at hs
  obtain ⟨⟨hloc, hdone⟩, rfl⟩ := hs
  have hgo : LetGo s.time (s.dev d) := by
    rcases (h.fits d).cases with (h | h | h | h) | h
    · exact absurd (hloc.symm.trans h.1) nofun
    · exact absurd (hloc.symm.trans h.1) nofun
    · exact absurd (hdone.symm.trans h.2.1) nofun
    · exact h
    · exact absurd (hdone.symm.trans h.2.1) nofun
  exact h.setDev ((h.fits d).of_current (.inr hgo) (.inr (.inl hgo.leave)))

theorem Inv.done_of_asleep {s : State D} (h : Inv s) {d : D} (hd : (s.dev d).loc = .asleep) :
    (s.dev d).done = true := by
  rcases (h.fits d).cases with (h | h | h | h) | h
  · exact absurd (hd.symm.trans h.1) nofun
  · exact absurd (hd.symm.trans h.1) nofun
  · exact h.2.1
  · exact absurd (hd.symm.trans h.1) nofun
  · exact h.2.1

/-! ### The timer moves -/

theorem Inv.timerRoutine {devs : DevList D} {s s' : State D} (h : Inv s)
    (hs : timerRoutine devs s = some s') :
    Inv s' := by
  obtain ⟨time, stop, t, dev⟩ := s
  cases t with
  | top =>
    simp only [Timer.timerRoutine, Option.some.injEq] at hs
    subst hs
    split_ifs
    · exact ⟨h.fits, nofun⟩
    · exact ⟨fun d => (if_pos (devs.mem_list d)).mpr (h.fits d), nofun⟩
  | scan temp fsh event =>
    cases temp with
    | nil =>
      -- every device has been checked: the slot is counted
      simp only [Timer.timerRoutine, Option.some.injEq] at hs
      subst hs
      refine ⟨?_, ?_⟩
      · intro d
        have hd : Checked time (dev d) := by simpa [Fits] using h.fits d
        exact (if_pos (devs.mem_list d)).mpr hd.pending
      · intro _ _ _ he
        cases he
        exact devs.nodup
    | cons e temp =>
      simp only [Timer.timerRoutine, Option.some.injEq] at hs
      subst hs
      by_cases hwait : (!(dev e).done && !(dev e).fsh) = true
      · rw [if_pos hwait]
        exact ⟨h.fits, nofun⟩
      · rw [if_neg hwait]
        refine ⟨?_, nofun⟩
        intro d
        have hd := h.fits d
        simp only [Fits] at hd ⊢
        by_cases htemp : d ∈ temp
        · rw [if_pos (List.mem_cons_of_mem e htemp)] at hd
          rwa [if_pos htemp]
        · rw [if_neg htemp]
          by_cases hde : d = e
          · subst hde
            rw [if_pos List.mem_cons_self] at hd
            exact hd.checked (by simpa using hwait)
          · rwa [if_neg (by simp [hde, htemp])] at hd
  | asleep e temp fsh event => cases hs
  | release temp fsh event =>
    cases temp with
    | nil =>
      simp only [Timer.timerRoutine, Option.some.injEq] at hs
      subst hs
      have hcur : ∀ d, Current time (dev d) := by
        intro d
        simpa [Fits] using h.fits d
      split_ifs
      · exact ⟨hcur, nofun⟩
      · exact ⟨hcur, nofun⟩
    | cons e temp =>
      simp only [Timer.timerRoutine, Option.some.injEq] at hs
      subst hs
      obtain ⟨hmem, hnodup⟩ := List.nodup_cons.mp (h.nodup _ _ _ rfl)
      refine ⟨?_, ?_⟩
      · intro d
        have hd := h.fits d
        by_cases hde : d = e
        · subst hde
          simp only [Fits, if_pos List.mem_cons_self] at hd
          simp only [Timer.setDev, Function.update_self, Fits, if_neg hmem]
          exact hd.release
        · simp only [Fits, List.mem_cons, hde, false_or] at hd
          simpa only [Timer.setDev, Function.update_of_ne hde, Fits] using hd
      · intro _ _ _ he
        cases he
        exact hnodup
  | exited => cases hs

theorem Inv.internal {devs : DevList D} {k : Internal D} {s s' : State D} (h : Inv s)
    (hs : internal devs k s = some s') : Inv s' := by
  cases k with
  | timer => exact h.timerRoutine hs
  | wakeTimer =>
    simp only [Timer.internal] at hs
    split at hs
    next e temp fsh event ht =>
      obtain rfl := Option.some.inj hs
      refine ⟨?_, nofun⟩
      intro d
      have hd := h.fits d
      rwa [ht] at hd
    · cases hs
  | sleep d =>
    simp only [Timer.internal, Option.ite_none_right_eq_some, Option.some.injEq] at hs
    obtain ⟨⟨hloc, hdone⟩, rfl⟩ := hs
    exact h.setDev ((h.fits d).of_done hdone (.inl hloc) (.inr rfl))
  | wake d =>
    simp only [Timer.internal, Option.ite_none_right_eq_some, Option.some.injEq] at hs
    obtain ⟨hloc, rfl⟩ := hs
    exact h.setDev ((h.fits d).of_done (h.done_of_asleep hloc) (.inr hloc) (.inl rfl))

theorem Inv.step {devs : DevList D} {a : Act D} {s s' : State D} (h : Inv s)
    (hs : step devs a s = some s') :
    Inv s' := by
  cases a with
  | nextSlot d => exact h.nextSlot hs
  | leave d => exact h.leave hs
  | detachEvent d => exact h.detachEvent hs
  | internal k => exact h.internal hs
  | stopTimer =>
    obtain rfl := Option.some.inj hs
    exact ⟨h.fits, h.nodup⟩

theorem inv_after (devs : DevList D) (as : List (Act D)) : Inv (after devs as) :=
  stutter_invariant (fun _ _ _ h hs => h.step hs) as inv_startTimer

/-! ### What follows -/

/-- The calls of a device that has not detached. -/
theorem Inv.calls {s : State D} (h : Inv s) {d : D} (hd : (s.dev d).loc ≠ .detached) :
    ((s.dev d).started = s.time ∨ (s.dev d).started = s.time + 1) ∧
      ((s.dev d).completed = s.time ∨ (s.dev d).completed + 1 = s.time) := by
  rcases (h.fits d).cases with
    (⟨hloc, -⟩ | ⟨-, -, -, hst, hco⟩ | ⟨-, -, -, hst, hco⟩ | ⟨-, -, -, hst, hco⟩) |
    ⟨-, -, -, hst, hco⟩
  · exact absurd hloc hd
  · exact ⟨.inl hst, .inl hco⟩
  · exact ⟨.inr hst, .inl hco⟩
  · exact ⟨.inl hst, .inr hco⟩
  · exact ⟨.inl hst, .inr hco⟩

/-- A step that changes `_time` is the timer's, at the end of its first loop. -/
theorem time_eq_or_scan_nil {devs : DevList D} {a : Act D} {s s' : State D}
    (hs : step devs a s = some s') :
    s'.time = s.time ∨ (s'.time = s.time + 1 ∧ ∃ fsh event, s.timer = .scan [] fsh event) := by
  have hsignal : ∀ (d : D) (s : State D), (signalEvent d s).time = s.time := by
    intro d s
    unfold signalEvent; split
    · split_ifs <;> rfl
    · rfl
  cases a with
  | nextSlot d =>
    simp only [step, nextSlot, Option.ite_none_right_eq_some, Option.some.injEq] at hs
    obtain ⟨-, rfl⟩ := hs
    exact .inl (hsignal _ _)
  | leave d =>
    simp only [step, leave, Option.ite_none_right_eq_some, Option.some.injEq] at hs
    obtain ⟨-, rfl⟩ := hs
    exact .inl rfl
  | detachEvent d =>
    simp only [step, detachEvent, Option.ite_none_right_eq_some, Option.some.injEq] at hs
    obtain ⟨-, rfl⟩ := hs
    exact .inl (hsignal _ _)
  | internal k =>
    cases k with
    | timer =>
      obtain ⟨time, stop, t, dev⟩ := s
      rcases t with _ | ⟨_ | ⟨e, temp⟩, fsh, event⟩ | _ | ⟨_ | ⟨e, temp⟩, fsh, event⟩ | _ <;>
        simp only [step, internal, timerRoutine, reduceCtorEq, Option.some.injEq] at hs <;> subst hs
      · left; split_ifs <;> rfl
      · exact .inr ⟨rfl, fsh, event, rfl⟩
      · left; split_ifs <;> rfl
      · exact .inl rfl
      · exact .inl rfl
    | wakeTimer =>
      simp only [step, internal] at hs
      split at hs
      · obtain rfl := Option.some.inj hs; exact .inl rfl
      · cases hs
    | sleep d =>
      simp only [step, internal, Option.ite_none_right_eq_some, Option.some.injEq] at hs
      obtain ⟨-, rfl⟩ := hs
      exact .inl rfl
    | wake d =>
      simp only [step, internal, Option.ite_none_right_eq_some, Option.some.injEq] at hs
      obtain ⟨-, rfl⟩ := hs
      exact .inl rfl
  | stopTimer =>
    obtain rfl := Option.some.inj hs
    exact .inl rfl

/-- When the slot is counted every device waits in `next_slot`, or has detached. -/
theorem Inv.arrived_of_time_ne {devs : DevList D} {a : Act D} {s s' : State D} (h : Inv s)
    (hs : Timer.step devs a s = some s') (htime : s'.time ≠ s.time) {d : D}
    (hd : (s.dev d).loc ≠ .detached) :
    Arrived s.time (s.dev d) := by
  rcases time_eq_or_scan_nil hs with heq | ⟨-, fsh, event, ht⟩
  · exact absurd heq htime
  · have hfit := h.fits d
    rw [ht] at hfit
    simp only [Fits, List.not_mem_nil, if_false] at hfit
    exact hfit.resolve_left fun hdet => hd hdet.1

/-- **The timer keeps the devices in step.** In every state reached:

* a device that has not detached has started `_time` or `_time + 1` calls of `next_slot`
  and completed `_time` or `_time - 1`;
* a step that changes `_time` counts one slot, and finds every such device inside its
  call of `next_slot` for the current slot;
* while a device is between two calls, `_time` is the number of its calls;
* two such devices are no more than one slot apart. -/
theorem lockStep (devs : DevList D) (as : List (Act D)) :
    (∀ d, ((after devs as).dev d).loc ≠ .detached →
      (((after devs as).dev d).started = (after devs as).time ∨
          ((after devs as).dev d).started = (after devs as).time + 1) ∧
        (((after devs as).dev d).completed = (after devs as).time ∨
          ((after devs as).dev d).completed + 1 = (after devs as).time)) ∧
      (∀ a s', step devs a (after devs as) = some s' → s'.time ≠ (after devs as).time →
        s'.time = (after devs as).time + 1 ∧
          ∀ d, ((after devs as).dev d).loc ≠ .detached →
            InNextSlot ((after devs as).dev d) ∧
              ((after devs as).dev d).started = (after devs as).time + 1) ∧
      (∀ d, ((after devs as).dev d).loc = .working →
        (after devs as).time = ((after devs as).dev d).started ∧
          (after devs as).time = ((after devs as).dev d).completed) ∧
      (∀ d e, ((after devs as).dev d).loc ≠ .detached → ((after devs as).dev e).loc ≠ .detached →
        ((after devs as).dev d).started ≤ ((after devs as).dev e).started + 1 ∧
          ((after devs as).dev d).completed ≤ ((after devs as).dev e).completed + 1) := by
  have h := inv_after devs as
  refine ⟨?_, ?_, ?_, ?_⟩
  · intro d hd
    exact h.calls hd
  · intro a s' hs htime
    constructor
    · rcases time_eq_or_scan_nil hs with heq | ⟨heq, -⟩
      · exact absurd heq htime
      · exact heq
    · intro d hd
      obtain ⟨hin, -, -, hstarted, -⟩ := h.arrived_of_time_ne hs htime hd
      exact ⟨hin, hstarted⟩
  · intro d hd
    obtain ⟨-, -, -, hstarted, hcompleted⟩ := h.working_of_loc hd
    exact ⟨hstarted.symm, hcompleted.symm⟩
  · intro d e hd he
    have hcd := h.calls hd
    have hce := h.calls he
    omega

end Ossim.Timer
