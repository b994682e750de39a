import Ossim.Sched.Conservation

/-!
# `get_proc` and `queue_empty`

`get_proc` is work conserving: it returns `NULL` only where there is nothing to return,
whatever the cursor and the slots are, and what it does otherwise touches one queue
(`getProc_workConserving`).

`queue_empty` was to tell the two cases apart without the call. Its scan of the ready
queues returns `-1` at one that is not empty, which is true in C, as is the `1` of the
other `return` when everything is empty. So its answer is the right one where every ready
queue is empty and nowhere else (`agrees_run_iff`).
-/

namespace Ossim.Sched

open Dispatch Machine

variable {α : Type*}

/-! ### `get_proc` -/

/-- From `s` to `s'` process `p` leaves the front of ready queue `i`, the cursor moves past
that queue, and the other queues are as they were. -/
structure TakesFrom (s s' : Mlq α) (i : Fin maxPrio) (p : α) : Prop where
  /-- `p` was in front, and the rest stays. -/
  front : (s.mlqReadyQueue i).toList = p :: (s'.mlqReadyQueue i).toList
  /-- No other queue changes. -/
  others : ∀ j, j ≠ i → s'.mlqReadyQueue j = s.mlqReadyQueue j
  /-- `curr_prio` is the priority after `i`. -/
  currPrio_eq : (s'.currPrio : ℕ) = (i + 1) % maxPrio

/-- Only one queue loses its front. -/
theorem TakesFrom.unique {s s' : Mlq α} {i j : Fin maxPrio} {p : α} (hi : TakesFrom s s' i p)
    (hj : TakesFrom s s' j p) : j = i := by
  by_contra hne
  have hlen := congrArg List.length hj.front
  rw [hi.others j hne, List.length_cons] at hlen
  omega

/-- What `get_proc` takes, it takes from one queue. -/
theorem takesFrom_take {s : Mlq α} {i : Fin maxPrio} {p : α}
    (hhead : (s.mlqReadyQueue i).toList.head? = some p) :
    TakesFrom s (advance (take (moveTo (atCall s) i)).2) i p where
  front := by
    obtain ⟨l, hl⟩ := List.head?_eq_some_iff.mp hhead
    rw [toList_take, if_pos rfl, atCall_mlqReadyQueue, hl, List.tail_cons]
  others := by
    intro j hj
    simp only [advance, take, moveTo, Function.update_of_ne hj, atCall_mlqReadyQueue]
  currPrio_eq := rfl

/-- **`get_proc` is work conserving and touches one queue only.** -/
theorem getProc_workConserving (s : Mlq α) :
    ((getProc s).1 = none ↔ ∀ i, (s.mlqReadyQueue i).toList = []) ∧
      ((getProc s).1 = none → (getProc s).2.mlqReadyQueue = s.mlqReadyQueue ∧
        (getProc s).2.currPrio = s.currPrio) ∧
      ∀ p, (getProc s).1 = some p → ∃! i, TakesFrom s (getProc s).2 i p := by
  rcases getMlqProc_cases s with ⟨i, p, -, hhead, hget⟩ | ⟨hempty, hget⟩
  · have htakes := takesFrom_take hhead
    rw [getProc, hget]
    refine ⟨iff_of_false (Option.some_ne_none p) ?_, fun h => absurd h (Option.some_ne_none p), ?_⟩
    · intro hempty
      rw [hempty i] at hhead
      cases hhead
    · intro q hq
      obtain rfl := Option.some.inj hq
      exact ⟨i, htakes, fun j hj => htakes.unique hj⟩
  · rw [getProc, hget]
    refine ⟨iff_of_true rfl hempty, fun _ => ⟨atCall_mlqReadyQueue s, atCall_currPrio s⟩, ?_⟩
    intro p hp
    cases hp

/-! ### `queue_empty` -/

/-- `queue_empty()` is true in C just when `get_proc` would return `NULL`. -/
def Agrees (s : Mlq α) : Prop := queueEmpty s ≠ 0 ↔ (getProc s).1 = none

/-- No function puts a process into `ready_queue` or `run_queue`. -/
structure LegacyEmpty (s : Mlq α) : Prop where
  /-- `ready_queue` is empty. -/
  readyQueue : empty s.readyQueue = true
  /-- `run_queue` is empty. -/
  runQueue : empty s.runQueue = true

theorem LegacyEmpty.enlist {s : Mlq α} (h : LegacyEmpty s) (prio : α → ℕ) (p : Option α) :
    LegacyEmpty (enlist prio p s) := by
  cases p with
  | none => exact h
  | some p =>
    simp only [Sched.enlist]
    split_ifs
    · exact ⟨h.readyQueue, h.runQueue⟩
    · exact h

theorem LegacyEmpty.atCall {s : Mlq α} (h : LegacyEmpty s) : LegacyEmpty (atCall s) := by
  unfold Sched.atCall
  split_ifs
  · exact ⟨h.readyQueue, h.runQueue⟩
  · exact h

theorem LegacyEmpty.take {s : Mlq α} (h : LegacyEmpty s) (i : Fin maxPrio) :
    LegacyEmpty (advance (take (moveTo s i)).2) where
  readyQueue := h.readyQueue
  runQueue := h.runQueue

theorem LegacyEmpty.call {s : Mlq α} (h : LegacyEmpty s) (prio : α → ℕ) (op : Op α) :
    LegacyEmpty (call prio op s) := by
  cases op with
  | addProc p => exact h.enlist prio (some p)
  | putProc p => exact h.enlist prio (some p)
  | getProc =>
    rcases getMlqProc_cases s with ⟨i, p, -, -, hget⟩ | ⟨-, hget⟩
    · rw [Sched.call, getProc, hget]
      exact h.atCall.take i
    · rw [Sched.call, getProc, hget]
      exact h.atCall

theorem legacyEmpty_run (prio : α → ℕ) (ops : List (Op α)) :
    LegacyEmpty (run (call prio) ops start) :=
  run_invariant (fun op _ h => h.call prio op) ops ⟨rfl, rfl⟩

/-- Where a ready queue is not empty `queue_empty` answers `-1`, which is true. -/
theorem agrees_iff {s : Mlq α} (h : LegacyEmpty s) :
    Agrees s ↔ ∀ i, (s.mlqReadyQueue i).toList = [] := by
  rw [Agrees, (getProc_workConserving s).1]
  have htrue : queueEmpty s ≠ 0 := by
    rw [queueEmpty, h.readyQueue, h.runQueue]
    by_cases hsome : ∃ i, !empty (s.mlqReadyQueue i)
    · rw [if_pos hsome]; decide
    · rw [if_neg hsome]; decide
  exact iff_true_left htrue

variable {prio : α → ℕ}

/-- A process with a priority that is handed in leaves its queue not empty, also where the
queue was full. -/
theorem toList_handed_ne_nil {op : Op α} {p : α} (hop : op.handed = some p)
    (hp : prio p < maxPrio) (s : Mlq α) :
    ((call prio op s).mlqReadyQueue ⟨prio p, hp⟩).toList ≠ [] := by
  rw [(call_of_handed hop s).1, toList_enlist]
  split_ifs with hroom
  · exact List.append_ne_nil_of_right_ne_nil _ (List.cons_ne_nil _ _)
  · intro hnil
    refine hroom ⟨rfl, hp, ?_⟩
    rw [hnil]
    exact Nat.zero_lt_succ _

/-- Where nothing is in the ready queues, a call that hands in no process with a priority
leaves nothing there. -/
theorem toList_call_eq_nil {op : Op α} (hop : ∀ p, op.handed = some p → ¬ prio p < maxPrio)
    {s : Mlq α} (h : ∀ i, (s.mlqReadyQueue i).toList = []) (i : Fin maxPrio) :
    ((call prio op s).mlqReadyQueue i).toList = [] := by
  cases op with
  | addProc p | putProc p =>
    refine (toList_enlist p s i).trans ?_
    rw [if_neg fun hr => hop p rfl hr.2.1]
    exact h i
  | getProc =>
    obtain ⟨hnone, hsame, -⟩ := getProc_workConserving s
    rw [call, (hsame (hnone.mpr h)).1]
    exact h i

/-- … and so does a run of such calls. -/
theorem toList_run_eq_nil {ops : List (Op α)}
    (hops : ∀ op ∈ ops, ∀ p, op.handed = some p → ¬ prio p < maxPrio) {s : Mlq α}
    (h : ∀ i, (s.mlqReadyQueue i).toList = []) (i : Fin maxPrio) :
    ((run (call prio) ops s).mlqReadyQueue i).toList = [] := by
  induction ops generalizing s with
  | nil => exact h i
  | cons op ops ih =>
    exact ih (fun o ho => hops o (List.mem_cons_of_mem _ ho))
      (toList_call_eq_nil (hops op List.mem_cons_self) h)

/-- **When `queue_empty` tells what `get_proc` would do**: in the states with every ready queue
empty and in no others; so throughout a run just when the run hands in no process that the
scheduler keeps. -/
theorem agrees_run_iff (prio : α → ℕ) (ops : List (Op α)) :
    (Agrees (run (call prio) ops start) ↔
        ∀ i, ((run (call prio) ops start).mlqReadyQueue i).toList = []) ∧
      ((∀ pre, pre <+: ops → Agrees (run (call prio) pre start)) ↔
        ∀ op ∈ ops, ∀ p, op.handed = some p → ¬ prio p < maxPrio) := by
  refine ⟨agrees_iff (legacyEmpty_run prio ops), ?_, ?_⟩
  · intro hagree op hop p hhanded hp
    obtain ⟨pre, post, rfl⟩ := List.append_of_mem hop
    have hpre : Agrees (run (call prio) (pre ++ [op]) start) :=
      hagree _ ⟨post, by rw [List.append_assoc]; rfl⟩
    have hempty := (agrees_iff (legacyEmpty_run prio _)).mp hpre ⟨prio p, hp⟩
    rw [run_concat] at hempty
    exact toList_handed_ne_nil hhanded hp _ hempty
  · rintro hops pre ⟨post, rfl⟩
    rw [agrees_iff (legacyEmpty_run prio pre)]
    apply toList_run_eq_nil fun op hop => hops op (List.mem_append_left _ hop)
    intro i
    exact Queue.toList_reset _

/-- After one `add_proc` of a process of priority `0` the answer is true, and `get_proc` would
return the process. -/
theorem one_added_not_agrees :
    ¬ Agrees (run (call fun _ : Unit => 0) [.addProc ()] start) := by
  rw [agrees_iff (legacyEmpty_run _ _)]
  intro hempty
  have hprio : 0 < maxPrio := Nat.zero_lt_succ _
  have hne : ((call (fun _ : Unit => 0) (.addProc ()) start).mlqReadyQueue
      ⟨0, hprio⟩).toList ≠ [] :=
    toList_handed_ne_nil (p := ()) rfl hprio start
  exact hne (hempty ⟨0, hprio⟩)

end Ossim.Sched
