import Ossim.Dispatch.RoundRobin
import Ossim.Sched.Queue

/-!
# The multi-level queue scheduler

`sched.c`, as it is compiled with `MLQ_SCHED`: one ready queue and one slot count for
each priority, and a cursor `curr_prio` that keeps its place from one call of
`get_mlq_proc` to the next. `get_mlq_proc` goes once round the priorities looking for
a queue that is not empty and has a slot left; failing that it sets every slot count
back and goes round again, looking for a queue that is not empty.

## The model

`Mlq` is the static data of the file. Each function is a function of it, which is
what a caller sees: every one of them holds `queue_lock` throughout. A process is
anything that has a priority (`prio`, the field of `struct pcb_t`, which no function
changes once the process is loaded). The two loops of `get_mlq_proc` differ in their
guard alone and are one definition, `scan`.

`toRoundRobin` forgets the arrays, and `getMlqProc_refines` says that what is left is
the round robin with budgets of `Dispatch.RoundRobin`, the budget of priority `i`
being `MAX_PRIO - i`.

What is *not* modelled: `running_list`, which nothing reads, and the pointers to the
queues that the functions leave in `proc->krnl`.
-/

namespace Ossim.Sched

open Dispatch

/-- `MAX_PRIO`. -/
def maxPrio : ℕ := 140

/-- The static data of `sched.c`, with the static local `curr_prio` of `get_mlq_proc`. -/
structure Mlq (α : Type*) where
  /-- `ready_queue`, which only `queue_empty` looks at. -/
  readyQueue : Queue α
  /-- `run_queue`, likewise. -/
  runQueue : Queue α
  /-- `mlq_ready_queue`. -/
  mlqReadyQueue : Fin maxPrio → Queue α
  /-- `slot`. -/
  slot : Fin maxPrio → ℤ
  /-- `curr_prio`. -/
  currPrio : Fin maxPrio

variable {α : Type*}

/-- The static data before the program runs. -/
def Mlq.zero : Mlq α where
  readyQueue := .zero
  runQueue := .zero
  mlqReadyQueue := fun _ => .zero
  slot := fun _ => 0
  currPrio := ⟨0, by decide⟩

/-- `queue_empty`. -/
def queueEmpty (s : Mlq α) : ℤ :=
  if ∃ prio, !empty (s.mlqReadyQueue prio) then -1
  else if empty s.readyQueue && empty s.runQueue then 1 else 0

/-- `for (i = 0; i < MAX_PRIO; i++) slot[i] = MAX_PRIO - i;`. -/
def resetSlots (s : Mlq α) : Mlq α := { s with slot := fun i => (maxPrio : ℤ) - i }

/-- `init_scheduler`. -/
def initScheduler (s : Mlq α) : Mlq α :=
  resetSlots
    { s with
      readyQueue := s.readyQueue.reset
      runQueue := s.runQueue.reset
      mlqReadyQueue := fun i => (s.mlqReadyQueue i).reset }

/-- `curr_prio = (curr_prio + 1) % MAX_PRIO;`. -/
def advance (s : Mlq α) : Mlq α := { s with currPrio := next s.currPrio }

/-- `proc = dequeue(&mlq_ready_queue[curr_prio]); slot[curr_prio]--;`. -/
def take (s : Mlq α) : Option α × Mlq α :=
  ((dequeue (s.mlqReadyQueue s.currPrio)).1,
    { s with
      mlqReadyQueue := Function.update s.mlqReadyQueue s.currPrio
        (dequeue (s.mlqReadyQueue s.currPrio)).2
      slot := Function.update s.slot s.currPrio (s.slot s.currPrio - 1) })

/-- `while (checked < MAX_PRIO) { if (guard) { take; break; } advance; checked++; }`, with
`MAX_PRIO - checked` iterations to go. -/
def scan (guard : Queue α → ℤ → Bool) : ℕ → Mlq α → Option α × Mlq α
  | 0, s => (none, s)
  | k + 1, s =>
    if guard (s.mlqReadyQueue s.currPrio) (s.slot s.currPrio) then take s
    else scan guard k (advance s)

/-- The guard of the first loop. -/
def hasSlot (q : Queue α) (slot : ℤ) : Bool := !empty q && decide (slot > 0)

/-- The guard of the second loop. -/
def hasProc (q : Queue α) (_ : ℤ) : Bool := !empty q

/-- `get_mlq_proc`. -/
def getMlqProc (s : Mlq α) : Option α × Mlq α :=
  let first := scan hasSlot maxPrio s
  let found := match first.1 with
    | none => scan hasProc maxPrio (resetSlots first.2)
    | some _ => first
  match found.1 with
  | none => found
  | some proc => (some proc, advance found.2)

/-- `enqueue(&mlq_ready_queue[proc->prio], proc)` after the tests `put_mlq_proc` and
`add_mlq_proc` both make. -/
def enlist (prio : α → ℕ) (proc : Option α) (s : Mlq α) : Mlq α :=
  match proc with
  | none => s
  | some p =>
    if h : prio p < maxPrio then
      { s with
        mlqReadyQueue := Function.update s.mlqReadyQueue ⟨prio p, h⟩
          (enqueue (s.mlqReadyQueue ⟨prio p, h⟩) proc) }
    else s

/-- `put_mlq_proc`. -/
def putMlqProc (prio : α → ℕ) (proc : Option α) (s : Mlq α) : Mlq α := enlist prio proc s

/-- `add_mlq_proc`. -/
def addMlqProc (prio : α → ℕ) (proc : Option α) (s : Mlq α) : Mlq α := enlist prio proc s

/-- `get_proc`. -/
def getProc (s : Mlq α) : Option α × Mlq α := getMlqProc s

/-- `put_proc`. -/
def putProc (prio : α → ℕ) (proc : Option α) (s : Mlq α) : Mlq α := putMlqProc prio proc s

/-- `add_proc`. -/
def addProc (prio : α → ℕ) (proc : Option α) (s : Mlq α) : Mlq α := addMlqProc prio proc s

/-! ### A scan is a search -/

@[simp] theorem resetSlots_mlqReadyQueue (s : Mlq α) :
    (resetSlots s).mlqReadyQueue = s.mlqReadyQueue := rfl

@[simp] theorem resetSlots_currPrio (s : Mlq α) : (resetSlots s).currPrio = s.currPrio := rfl

/-- The cursor moved to priority `i`. -/
def moveTo (s : Mlq α) (i : Fin maxPrio) : Mlq α := { s with currPrio := i }

/-- A scan takes from the nearest queue its guard accepts, and on the way moves nothing
but the cursor. -/
theorem scan_eq (guard : Queue α → ℤ → Bool) (k : ℕ) (s : Mlq α) :
    scan guard k s = match search (fun i => guard (s.mlqReadyQueue i) (s.slot i)) k s.currPrio with
      | some i => take (moveTo s i)
      | none => (none, moveTo s (next^[k] s.currPrio)) := by
  induction k generalizing s with
  | zero => rfl
  | succ k ih =>
    rw [scan, search]
    split_ifs with h
    · rfl
    · rw [ih]
      rfl

/-- A scan all the way round that finds nothing changes nothing. -/
theorem scan_all_eq (guard : Queue α → ℤ → Bool) (s : Mlq α) :
    scan guard maxPrio s =
      match search (fun i => guard (s.mlqReadyQueue i) (s.slot i)) maxPrio s.currPrio with
      | some i => take (moveTo s i)
      | none => (none, s) := by
  rw [scan_eq, iterate_next_self]
  rfl

theorem take_fst (s : Mlq α) (i : Fin maxPrio) :
    (take (moveTo s i)).1 = (s.mlqReadyQueue i).toList.head? := dequeue_fst _

/-- At a queue that is not empty the process taken is not `NULL`. -/
theorem exists_take_fst {s : Mlq α} {i : Fin maxPrio} (h : (s.mlqReadyQueue i).toList ≠ []) :
    ∃ p, (take (moveTo s i)).1 = some p ∧ (s.mlqReadyQueue i).toList.head? = some p := by
  obtain ⟨p, l, hl⟩ := List.exists_cons_of_ne_nil h
  exact ⟨p, by rw [take_fst, hl]; rfl, by rw [hl]; rfl⟩

/-- The first loop of `get_mlq_proc` finds nothing, so that the call sets the slots back. -/
def Replenishes (s : Mlq α) : Prop := ∀ i, hasSlot (s.mlqReadyQueue i) (s.slot i) = false

instance (s : Mlq α) : Decidable (Replenishes s) :=
  inferInstanceAs (Decidable (∀ i, hasSlot (s.mlqReadyQueue i) (s.slot i) = false))

/-- The state in which a call of `get_mlq_proc` makes its choice, the slots set back if it
sets them back. -/
def atCall (s : Mlq α) : Mlq α := if Replenishes s then resetSlots s else s

@[simp] theorem atCall_mlqReadyQueue (s : Mlq α) : (atCall s).mlqReadyQueue = s.mlqReadyQueue := by
  unfold atCall; split_ifs <;> rfl

@[simp] theorem atCall_currPrio (s : Mlq α) : (atCall s).currPrio = s.currPrio := by
  unfold atCall; split_ifs <;> rfl

/-- The queues `get_mlq_proc` chooses from: not empty, and with a slot left when the choice
is made. -/
def servable (s : Mlq α) (i : Fin maxPrio) : Bool := hasSlot (s.mlqReadyQueue i) ((atCall s).slot i)

theorem hasSlot_iff {q : Queue α} {slot : ℤ} : hasSlot q slot = true ↔ q.toList ≠ [] ∧ 0 < slot := by
  rw [hasSlot, Bool.and_eq_true, Bool.not_eq_true', empty_eq_false_iff, decide_eq_true_iff, gt_iff_lt]

theorem servable_iff {s : Mlq α} {i : Fin maxPrio} :
    servable s i = true ↔ (s.mlqReadyQueue i).toList ≠ [] ∧ 0 < (atCall s).slot i := hasSlot_iff

theorem resetSlots_slot_pos (s : Mlq α) (i : Fin maxPrio) : 0 < (resetSlots s).slot i := by
  have hi := i.isLt
  simp only [resetSlots]
  omega

/-- After the slots are set back, a queue with a process has a slot too. -/
theorem hasProc_eq_of_replenishes {s : Mlq α} (h : Replenishes s) :
    (fun i => hasProc (s.mlqReadyQueue i) ((resetSlots s).slot i)) = servable s := by
  funext i
  rw [servable, atCall, if_pos h, hasProc, hasSlot, decide_eq_true (resetSlots_slot_pos s i),
    Bool.and_true]

/-- **What `get_mlq_proc` does**: it takes the front of the nearest queue it can serve,
one slot of that queue, and moves the cursor past it; or every queue is empty and only the
slots change. -/
theorem getMlqProc_cases (s : Mlq α) :
    (∃ i p, search (servable s) maxPrio s.currPrio = some i ∧
      (s.mlqReadyQueue i).toList.head? = some p ∧
        getMlqProc s = (some p, advance (take (moveTo (atCall s) i)).2)) ∨
      ((∀ i, (s.mlqReadyQueue i).toList = []) ∧ getMlqProc s = (none, atCall s)) := by
  by_cases hr : Replenishes s
  · have hfirst : scan hasSlot maxPrio s = (none, s) := by
      rw [scan_all_eq, search_all_eq_none_iff.mpr hr]
    have hcall : atCall s = resetSlots s := if_pos hr
    rw [getMlqProc, hfirst]
    simp only [scan_all_eq hasProc, resetSlots_mlqReadyQueue, resetSlots_currPrio,
      hasProc_eq_of_replenishes hr]
    cases hsecond : search (servable s) maxPrio s.currPrio with
    | some i =>
      have hi := (servable_iff.mp (search_eq_some_iff.mp hsecond).1).1
      obtain ⟨p, hp, hhead⟩ := exists_take_fst (s := resetSlots s) hi
      exact Or.inl ⟨i, p, rfl, hhead, by simp only [hp, hcall]⟩
    | none =>
      refine Or.inr ⟨?_, by rw [hcall]⟩
      intro i
      by_contra hi
      have hno := search_all_eq_none_iff.mp hsecond i
      rw [servable_iff.mpr ⟨hi, by rw [hcall]; exact resetSlots_slot_pos s i⟩] at hno
      cases hno
  · have hcall : atCall s = s := if_neg hr
    have hservable : servable s = fun i => hasSlot (s.mlqReadyQueue i) (s.slot i) := by
      funext i
      rw [servable, hcall]
    rw [getMlqProc, scan_all_eq, hservable, hcall]
    cases hfirst : search (fun i => hasSlot (s.mlqReadyQueue i) (s.slot i)) maxPrio s.currPrio with
    | some i =>
      have hi := (hasSlot_iff.mp (search_eq_some_iff.mp hfirst).1).1
      obtain ⟨p, hp, hhead⟩ := exists_take_fst hi
      exact Or.inl ⟨i, p, rfl, hhead, by simp only [hp]⟩
    | none => exact absurd (search_all_eq_none_iff.mp hfirst) hr

/-! ### The abstract scheduler -/

/-- The budget of a priority. -/
def quota (i : Fin maxPrio) : ℕ := maxPrio - i

theorem quota_pos (i : Fin maxPrio) : 0 < quota i := Nat.sub_pos_of_lt i.isLt

theorem cast_quota (i : Fin maxPrio) : (quota i : ℤ) = (maxPrio : ℤ) - i := Nat.cast_sub i.isLt.le

/-- The scheduler without its arrays. -/
def toRoundRobin (s : Mlq α) : RoundRobin.State maxPrio α where
  queue := fun i => (s.mlqReadyQueue i).toList
  credit := fun i => (s.slot i).toNat
  cursor := s.currPrio

theorem toRoundRobin_resetSlots (s : Mlq α) :
    toRoundRobin (resetSlots s) = RoundRobin.refill quota (toRoundRobin s) := by
  simp only [toRoundRobin, RoundRobin.refill, resetSlots, RoundRobin.State.mk.injEq, true_and,
    and_true]
  funext i
  rw [← cast_quota, Int.toNat_natCast]

/-- Taking at priority `i` and moving on is serving class `i`. -/
theorem toRoundRobin_take (s : Mlq α) (i : Fin maxPrio) :
    toRoundRobin (advance (take (moveTo s i)).2) = RoundRobin.serve (toRoundRobin s) i := by
  simp only [toRoundRobin, RoundRobin.serve, take, moveTo, advance, RoundRobin.State.mk.injEq,
    and_true]
  constructor
  · funext j
    by_cases hj : j = i
    · subst hj; simp only [Function.update_self]; exact toList_dequeue _
    · simp [Function.update_of_ne hj]
  · funext j
    by_cases hj : j = i
    · subst hj; simp only [Function.update_self]; omega
    · simp [Function.update_of_ne hj]

theorem servable_eq (s : Mlq α) :
    servable s = RoundRobin.eligible (toRoundRobin (atCall s)) := by
  funext i
  rw [Bool.eq_iff_iff, servable_iff, RoundRobin.eligible_iff]
  simp only [toRoundRobin, atCall_mlqReadyQueue]
  exact and_congr_right fun _ => Int.lt_toNat.symm

theorem replenishes_iff (s : Mlq α) : Replenishes s ↔ RoundRobin.Refills (toRoundRobin s) := by
  apply forall_congr'
  intro i
  rw [← Bool.not_eq_true, ← Bool.not_eq_true, hasSlot_iff, RoundRobin.eligible_iff]
  exact not_congr (and_congr_right fun _ => Int.lt_toNat.symm)

theorem toRoundRobin_atCall (s : Mlq α) :
    toRoundRobin (atCall s) = RoundRobin.turn quota (toRoundRobin s) := by
  by_cases h : Replenishes s
  · rw [atCall, if_pos h, toRoundRobin_resetSlots,
      RoundRobin.turn_of_refills ((replenishes_iff s).mp h)]
  · rw [atCall, if_neg h, RoundRobin.turn_of_not_refills fun hr => h ((replenishes_iff s).mpr hr)]

/-- **`get_mlq_proc` is a turn of the round robin with budgets.** -/
theorem getMlqProc_refines (s : Mlq α) :
    toRoundRobin (getMlqProc s).2 = (RoundRobin.pick quota (toRoundRobin s)).2 ∧
      (getMlqProc s).1 = RoundRobin.picked quota (toRoundRobin s) := by
  have hcursor : (toRoundRobin s).cursor = s.currPrio := rfl
  rw [RoundRobin.picked, RoundRobin.pick_eq quota_pos, ← toRoundRobin_atCall, ← servable_eq, hcursor]
  rcases getMlqProc_cases s with ⟨i, p, hsearch, hhead, hget⟩ | ⟨hempty, hget⟩
  · rw [hsearch, hget]
    exact ⟨toRoundRobin_take _ i, hhead.symm⟩
  · have hsearch : search (servable s) maxPrio s.currPrio = none := by
      apply search_all_eq_none_iff.mpr
      intro i
      rw [← Bool.not_eq_true, servable_iff]
      exact fun h => h.1 (hempty i)
    rw [hsearch, hget]
    exact ⟨rfl, rfl⟩

end Ossim.Sched
