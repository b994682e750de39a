import Ossim.Sched.Conservation

/-!
# Each priority is a first-in first-out queue

A call touches at most one ready queue: `add_proc` and `put_proc` the queue of the
process they are given, `get_proc` the queue it takes from. So over a run each queue
sees a list of arrivals and gives them back from the front: what `get_proc` has
returned of a priority, followed by what waits in its queue, is what arrived there
while there was room, in the order of the calls (`fifo`).
-/

namespace Ossim.Sched

open Dispatch Machine

variable {α : Type*} (prio : α → ℕ)

/-- The processes of priority `q` in a list, in its order. -/
def ofPrio (q : Fin maxPrio) (l : List α) : List α := l.filter fun p => prio p = q

variable {prio}

@[simp] theorem ofPrio_append (q : Fin maxPrio) (l l' : List α) :
    ofPrio prio q (l ++ l') = ofPrio prio q l ++ ofPrio prio q l' := List.filter_append ..

@[simp] theorem ofPrio_nil (q : Fin maxPrio) : ofPrio prio q [] = [] := rfl

theorem ofPrio_singleton (q : Fin maxPrio) (p : α) :
    ofPrio prio q [p] = if prio p = q then [p] else [] := by
  simp [ofPrio, List.filter_singleton]

/-! ### One call -/

/-- A call that hands in a process adds to the queue of priority `q` what it accepts of that
priority. -/
theorem toList_handed {op : Op α} {p : α} (hop : op.handed = some p) (s : Mlq α)
    (q : Fin maxPrio) :
    ((call prio op s).mlqReadyQueue q).toList =
      (s.mlqReadyQueue q).toList ++ ofPrio prio q (accepts prio op s) := by
  rw [(call_of_handed hop s).1, toList_enlist]
  by_cases hroom : HasRoom prio s p
  · rw [accepts_of_room hop hroom, ofPrio_singleton]
    by_cases hq : prio p = q
    · rw [if_pos ⟨hq, hroom⟩, if_pos hq]
    · rw [if_neg fun h => hq h.1, if_neg hq, List.append_nil]
  · rw [accepts_of_full hop hroom, if_neg fun h => hroom h.2, ofPrio_nil, List.append_nil]

/-- `get_proc` returns the front of one queue, which is a process of its priority, and
leaves the other queues alone. -/
theorem toList_getProc {s : Mlq α} (h : Sound prio s) (q : Fin maxPrio) :
    ofPrio prio q (getProc s).1.toList ++ ((getProc s).2.mlqReadyQueue q).toList =
      (s.mlqReadyQueue q).toList := by
  rcases getMlqProc_cases s with ⟨i, p, -, hhead, hget⟩ | ⟨-, hget⟩
  · rw [getProc, hget]
    simp only [Option.toList_some, ofPrio_singleton, toList_take, atCall_mlqReadyQueue]
    obtain ⟨l, hl⟩ := List.head?_eq_some_iff.mp hhead
    have hp : prio p = i := h.placed i p (by rw [hl]; exact List.mem_cons_self)
    by_cases hq : q = i
    · subst hq
      rw [if_pos hp, if_pos rfl, hl]
      rfl
    · rw [if_neg hq, if_neg fun he => hq (Fin.ext (he.symm.trans hp)), List.nil_append]
  · rw [getProc, hget]
    simp

/-- The step of the law. -/
theorem ofPrio_call {s : Mlq α} (h : Sound prio s) (op : Op α) (q : Fin maxPrio) :
    ofPrio prio q (result op s).reduceOption ++ ((call prio op s).mlqReadyQueue q).toList =
      (s.mlqReadyQueue q).toList ++ ofPrio prio q (accepts prio op s) := by
  cases hop : op.handed with
  | some p =>
    obtain ⟨-, hres⟩ : call prio op s = enlist prio (some p) s ∧ result op s = [] :=
      call_of_handed hop s
    rw [hres, toList_handed hop]
    rfl
  | none =>
    obtain rfl : op = .getProc := by cases op <;> first | rfl | cases hop
    have hlist : (result .getProc s).reduceOption = (getProc s).1.toList := by
      rw [result]
      cases (getProc s).1 <;> rfl
    rw [hlist, call, toList_getProc h, accepts, hop, ofPrio_nil, List.append_nil]

/-! ### A run -/

/-- **Each ready queue is first in, first out**: the processes of priority `q` returned, then
those waiting in its queue from front to back, are those that a call found room for, in the
order of the calls. -/
theorem fifo (prio : α → ℕ) (ops : List (Op α)) (q : Fin maxPrio) :
    ofPrio prio q (returned prio ops start) ++
        ((run (call prio) ops start).mlqReadyQueue q).toList =
      ofPrio prio q (accepted prio ops start) := by
  induction ops using List.reverseRecOn with
  | nil => simp [returned, accepted, output, start, initScheduler]
  | append_singleton ops op ih =>
    have hstep := ofPrio_call (@sound_run _ prio ops) op q
    rw [accepted, returned] at ih ⊢
    rw [output_concat, output_concat, run_concat, List.reduceOption_append, ofPrio_append,
      ofPrio_append, ← ih, List.append_assoc, List.append_assoc, hstep]

end Ossim.Sched
