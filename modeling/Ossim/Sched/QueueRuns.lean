import Ossim.Machine.BoundedList
import Ossim.Sched.Queue

/-!
# The array queue is a bounded list

The four operations of `queue.c` in any order, on a queue whose `size` is `0` at the
start. What a caller sees of it is a list of at most `MAX_QUEUE_SIZE` processes: the
array and its shifting loops do not show (`queue_refines`).
-/

namespace Ossim.Sched

open Machine

variable {α : Type*} [DecidableEq α]

/-- The calls of `queue.c`, with a process that is not `NULL`. -/
inductive QueueOp (α : Type*) where
  /-- `enqueue(q, proc)`. -/
  | enqueue (proc : α)
  /-- `enqueue_front(q, proc)`. -/
  | enqueueFront (proc : α)
  /-- `dequeue(q)`. -/
  | dequeue
  /-- `purgequeue(q, proc)`. -/
  | purgequeue (proc : α)

/-- A call. -/
def queueCall : QueueOp α → Queue α → Queue α
  | .enqueue p, q => enqueue q (some p)
  | .enqueueFront p, q => enqueueFront q (some p)
  | .dequeue, q => (dequeue q).2
  | .purgequeue p, q => (purgequeue q (some p)).2

/-- What the call returns. -/
def queueResult : QueueOp α → Queue α → List (Option α)
  | .dequeue, q => [(dequeue q).1]
  | .purgequeue p, q => [(purgequeue q (some p)).1]
  | .enqueue _, _ | .enqueueFront _, _ => []

/-- A call, as the list sees it. -/
def QueueOp.toOp : QueueOp α → BoundedList.Op α
  | .enqueue p => .append p
  | .enqueueFront p => .prepend p
  | .dequeue => .pop
  | .purgequeue p => .remove p

/-- The slots in use are the list, the front in slot `0`. -/
structure Represents (q : Queue α) (l : List α) : Prop where
  /-- As many slots as entries. -/
  size_eq : q.size = l.length
  /-- Slot `i` holds entry `i`. -/
  proc_eq : ∀ i : Fin maxQueueSize, (i : ℕ) < q.size → q.proc i = l[(i : ℕ)]?

omit [DecidableEq α] in
theorem represents_iff {q : Queue α} {l : List α} : Represents q l ↔ q.toList = l := by
  rw [Queue.toList_eq_iff]
  constructor
  · intro h
    exact ⟨h.size_eq, fun i hi => h.proc_eq ⟨i, _⟩ hi⟩
  · rintro ⟨hsize, hproc⟩
    exact ⟨hsize, fun i hi => hproc i hi⟩

/-- The step: a call does to the entries what the operation does to the list. -/
theorem toList_queueCall (op : QueueOp α) (q : Queue α) :
    (queueCall op q).toList = BoundedList.move maxQueueSize op.toOp q.toList := by
  cases op with
  | enqueue p => exact toList_enqueue q p
  | enqueueFront p => exact toList_enqueueFront q p
  | dequeue => exact toList_dequeue q
  | purgequeue p =>
    rcases purgequeue_spec q p with ⟨-, -, hlist⟩ | ⟨hmem, hq⟩
    · exact hlist
    · rw [queueCall, hq, QueueOp.toOp, BoundedList.move, List.erase_of_not_mem hmem]

/-- … and returns what the operation returns. -/
theorem queueResult_eq (op : QueueOp α) (q : Queue α) :
    queueResult op q = BoundedList.taken op.toOp q.toList := by
  cases op with
  | enqueue p => rfl
  | enqueueFront p => rfl
  | dequeue => exact congrArg (fun r => [r]) (dequeue_fst q)
  | purgequeue p =>
    rcases purgequeue_spec q p with ⟨hmem, hres, -⟩ | ⟨hmem, hq⟩
    · rw [queueResult, hres, QueueOp.toOp, BoundedList.taken, if_pos hmem]
    · rw [queueResult, hq, QueueOp.toOp, BoundedList.taken, if_neg hmem]

/-- **The array queue refines a bounded list**: after any calls the slots in use are the list
the same operations make of the empty list, every call returned what the list operation
returned, and the slots in use are slots of the array. -/
theorem queue_refines {q : Queue α} (hq : q.size = 0) (ops : List (QueueOp α)) :
    Represents (run queueCall ops q)
        (run (BoundedList.move maxQueueSize) (ops.map QueueOp.toOp) []) ∧
      output queueCall queueResult ops q =
        output (BoundedList.move maxQueueSize) BoundedList.taken (ops.map QueueOp.toOp) [] ∧
      (run queueCall ops q).size ≤ maxQueueSize := by
  have hnil : q.toList = [] := List.length_eq_zero_iff.mp (by rw [Queue.length_toList, hq])
  have hrun := run_map toList_queueCall ops q
  have hout := output_map toList_queueCall queueResult_eq ops q
  rw [hnil] at hrun hout
  refine ⟨represents_iff.mpr hrun, hout, ?_⟩
  rw [(represents_iff.mpr hrun).size_eq]
  exact BoundedList.length_run_le _ (Nat.zero_le _)

/-- Of two entries `1` the first goes, and `2`, put in front, is returned before the other. -/
theorem queue_refines_zero :
    Represents (run queueCall [.enqueue 1, .enqueueFront 2, .enqueue 1, .purgequeue 1, .dequeue]
        (Queue.zero : Queue ℕ)) [1] ∧
      output queueCall queueResult
          [.enqueue 1, .enqueueFront 2, .enqueue 1, .purgequeue 1, .dequeue]
          (Queue.zero : Queue ℕ) = [some 1, some 2] ∧
      (run queueCall [.enqueue 1, .enqueueFront 2, .enqueue 1, .purgequeue 1, .dequeue]
        (Queue.zero : Queue ℕ)).size ≤ maxQueueSize :=
  queue_refines rfl [.enqueue 1, .enqueueFront 2, .enqueue 1, .purgequeue 1, .dequeue]

end Ossim.Sched
