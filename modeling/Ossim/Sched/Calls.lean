import Ossim.Sched.Mlq

/-!
# Runs of the scheduler

A run is a list of calls of `add_proc`, `put_proc` and `get_proc`, made after
`init_scheduler`. `queue_lock` makes each call one step, so the runs are all the ways
the calls of the loader and of the CPUs can interleave.

`Sound` collects what every call keeps: a slot count stays between `0` and the budget of
its priority, and a queue holds processes of its own priority only.
-/

namespace Ossim.Sched

open Dispatch Machine

variable {α : Type*} (prio : α → ℕ)

/-- The calls. -/
inductive Op (α : Type*) where
  /-- `add_proc(proc)`. -/
  | addProc (proc : α)
  /-- `put_proc(proc)`. -/
  | putProc (proc : α)
  /-- `get_proc()`. -/
  | getProc

/-- The process a call hands in. -/
def Op.handed : Op α → Option α
  | .addProc p | .putProc p => some p
  | .getProc => none

/-- A call. -/
def call : Op α → Mlq α → Mlq α
  | .addProc p, s => addProc prio (some p) s
  | .putProc p, s => putProc prio (some p) s
  | .getProc, s => (getProc s).2

/-- The scheduler when the first call is made. -/
def start : Mlq α := initScheduler .zero

/-- What a call of `get_proc` returns. -/
def result : Op α → Mlq α → List (Option α)
  | .getProc, s => [(getProc s).1]
  | .addProc _, _ | .putProc _, _ => []

/-! ### What a call does -/

/-- The queue a process belongs to has room. -/
def HasRoom (s : Mlq α) (p : α) : Prop :=
  ∃ h : prio p < maxPrio, (s.mlqReadyQueue ⟨prio p, h⟩).toList.length < maxQueueSize

instance (s : Mlq α) (p : α) : Decidable (HasRoom prio s p) :=
  if h : prio p < maxPrio then
    decidable_of_iff ((s.mlqReadyQueue ⟨prio p, h⟩).toList.length < maxQueueSize)
      ⟨fun hl => ⟨h, hl⟩, fun ⟨_, hl⟩ => hl⟩
  else isFalse fun hr => h hr.1

variable {prio}

@[simp] theorem enlist_slot (p : Option α) (s : Mlq α) : (enlist prio p s).slot = s.slot := by
  cases p with
  | none => rfl
  | some p => simp only [enlist]; split_ifs <;> rfl

@[simp] theorem enlist_currPrio (p : Option α) (s : Mlq α) :
    (enlist prio p s).currPrio = s.currPrio := by
  cases p with
  | none => rfl
  | some p => simp only [enlist]; split_ifs <;> rfl

theorem enlist_mlqReadyQueue {p : α} (h : prio p < maxPrio) (s : Mlq α) :
    (enlist prio (some p) s).mlqReadyQueue =
      Function.update s.mlqReadyQueue ⟨prio p, h⟩
        (enqueue (s.mlqReadyQueue ⟨prio p, h⟩) (some p)) := by
  simp only [enlist, dif_pos h]

/-- **What `add_proc` and `put_proc` do** to the queues: the process joins the end of the
queue of its priority if there is room, and otherwise nothing happens. -/
theorem toList_enlist (p : α) (s : Mlq α) (i : Fin maxPrio) :
    ((enlist prio (some p) s).mlqReadyQueue i).toList =
      if prio p = i ∧ HasRoom prio s p then (s.mlqReadyQueue i).toList ++ [p]
      else (s.mlqReadyQueue i).toList := by
  by_cases hp : prio p < maxPrio
  · rw [enlist_mlqReadyQueue hp]
    by_cases hi : prio p = i
    · obtain rfl : ⟨prio p, hp⟩ = i := Fin.ext hi
      rw [Function.update_self, toList_enqueue]
      exact if_congr ⟨fun h => ⟨rfl, hp, h⟩, fun h => h.2.2⟩ rfl rfl
    · rw [Function.update_of_ne fun he => hi (congrArg Fin.val he).symm, if_neg fun h => hi h.1]
  · rw [if_neg fun h => hp h.2.1]
    simp only [enlist, dif_neg hp]

/-- The queues after a call of `get_proc` that took from queue `i`. -/
theorem toList_take (s : Mlq α) (i j : Fin maxPrio) :
    ((advance (take (moveTo s i)).2).mlqReadyQueue j).toList =
      if j = i then (s.mlqReadyQueue i).toList.tail else (s.mlqReadyQueue j).toList := by
  simp only [take, moveTo, advance]
  split_ifs with h
  · subst h; rw [Function.update_self]; exact toList_dequeue _
  · rw [Function.update_of_ne h]

theorem take_slot (s : Mlq α) (i j : Fin maxPrio) :
    (advance (take (moveTo s i)).2).slot j = if j = i then s.slot i - 1 else s.slot j := by
  simp only [take, moveTo, advance]
  split_ifs with h
  · subst h; rw [Function.update_self]
  · rw [Function.update_of_ne h]

/-! ### What every call keeps -/

variable (prio)

/-- What every call keeps. -/
structure Sound (s : Mlq α) : Prop where
  /-- A slot count is not negative. -/
  slot_nonneg : ∀ i, 0 ≤ s.slot i
  /-- A slot count is at most the budget of its priority. -/
  slot_le : ∀ i, s.slot i ≤ (maxPrio : ℤ) - i
  /-- A queue holds processes of its priority. -/
  placed : ∀ i, ∀ p ∈ (s.mlqReadyQueue i).toList, prio p = i

theorem sound_start : Sound prio (start : Mlq α) where
  slot_nonneg := fun i => (resetSlots_slot_pos _ i).le
  slot_le := fun _ => le_rfl
  placed := by
    intro i p hp
    simp [start, initScheduler] at hp

variable {prio}

theorem Sound.enlist {s : Mlq α} (h : Sound prio s) (p : α) :
    Sound prio (enlist prio (some p) s) where
  slot_nonneg := by
    intro i
    rw [enlist_slot]
    exact h.slot_nonneg i
  slot_le := by
    intro i
    rw [enlist_slot]
    exact h.slot_le i
  placed := by
    intro i x hx
    rw [toList_enlist] at hx
    split_ifs at hx with hp
    · rcases List.mem_append.mp hx with hx | hx
      · exact h.placed i x hx
      · rw [List.mem_singleton.mp hx]; exact hp.1
    · exact h.placed i x hx

theorem Sound.atCall {s : Mlq α} (h : Sound prio s) : Sound prio (atCall s) := by
  by_cases hr : Replenishes s
  · rw [Sched.atCall, if_pos hr]
    exact ⟨fun i => (resetSlots_slot_pos s i).le, fun _ => le_rfl, h.placed⟩
  · rwa [Sched.atCall, if_neg hr]

theorem Sound.getProc {s : Mlq α} (h : Sound prio s) : Sound prio (getProc s).2 := by
  rcases getMlqProc_cases s with ⟨i, p, hsearch, -, hget⟩ | ⟨-, hget⟩
  · rw [Sched.getProc, hget]
    have hpos := (servable_iff.mp (search_eq_some_iff.mp hsearch).1).2
    refine ⟨?_, ?_, ?_⟩
    · intro j
      rw [take_slot]
      split_ifs
      · omega
      · exact h.atCall.slot_nonneg j
    · intro j
      rw [take_slot]
      have := h.atCall.slot_le j
      split_ifs with hj
      · subst hj; omega
      · exact this
    · intro j x hx
      simp only [toList_take, atCall_mlqReadyQueue] at hx
      split_ifs at hx with hj
      · exact hj ▸ h.placed i x (List.mem_of_mem_tail hx)
      · exact h.placed j x hx
  · rw [Sched.getProc, hget]
    exact h.atCall

theorem Sound.call {s : Mlq α} (h : Sound prio s) (op : Op α) : Sound prio (call prio op s) := by
  cases op with
  | addProc p => exact h.enlist p
  | putProc p => exact h.enlist p
  | getProc => exact h.getProc

theorem sound_run (ops : List (Op α)) : Sound prio (run (call prio) ops start) :=
  run_invariant (fun op _ h => h.call op) ops (sound_start prio)

/-! ### Runs of the abstract scheduler -/

variable (prio)

/-- A call, as the round robin sees it. -/
def toOp : Op α → RoundRobin.Op maxPrio α
  | .addProc p | .putProc p => if h : prio p < maxPrio then .insert ⟨prio p, h⟩ p else .skip
  | .getProc => .pick

theorem toRoundRobin_enlist (p : α) (s : Mlq α) :
    toRoundRobin (enlist prio (some p) s) =
      RoundRobin.move quota maxQueueSize (toOp prio (.addProc p)) (toRoundRobin s) := by
  simp only [toOp, toRoundRobin, enlist_slot, enlist_currPrio]
  split_ifs with hp
  · simp only [RoundRobin.move, RoundRobin.insert]
    have hq : ∀ i, ((enlist prio (some p) s).mlqReadyQueue i).toList = _ := toList_enlist p s
    by_cases hlt : (s.mlqReadyQueue ⟨prio p, hp⟩).toList.length < maxQueueSize
    · rw [if_pos hlt]
      congr 1
      funext i
      rw [hq]
      by_cases hi : prio p = i
      · obtain rfl : ⟨prio p, hp⟩ = i := Fin.ext hi
        rw [if_pos ⟨rfl, hp, hlt⟩, Function.update_self]
      · rw [if_neg fun h => hi h.1, Function.update_of_ne fun he => hi (congrArg Fin.val he).symm]
    · rw [if_neg hlt]
      congr 1
      funext i
      rw [hq, if_neg fun h => hlt h.2.2]
  · simp only [RoundRobin.move]
    congr 1
    funext i
    rw [toList_enlist, if_neg fun h => hp h.2.1]

/-- **The scheduler follows the round robin with budgets call by call.** -/
theorem call_refines (op : Op α) (s : Mlq α) :
    toRoundRobin (call prio op s) =
      RoundRobin.move quota maxQueueSize (toOp prio op) (toRoundRobin s) := by
  cases op with
  | addProc p => exact toRoundRobin_enlist prio p s
  | putProc p => exact toRoundRobin_enlist prio p s
  | getProc => exact (getMlqProc_refines s).1

/-- … and so over runs. -/
theorem run_refines (ops : List (Op α)) (s : Mlq α) :
    toRoundRobin (run (call prio) ops s) =
      run (RoundRobin.move quota maxQueueSize) (ops.map (toOp prio)) (toRoundRobin s) :=
  run_map (call_refines prio) ops s

theorem result_refines (op : Op α) (s : Mlq α) :
    result op s = RoundRobin.taken quota (toOp prio op) (toRoundRobin s) := by
  cases op with
  | addProc p => simp only [result, toOp]; split_ifs <;> rfl
  | putProc p => simp only [result, toOp]; split_ifs <;> rfl
  | getProc => exact congrArg (fun r => [r]) (getMlqProc_refines s).2

end Ossim.Sched
