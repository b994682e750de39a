import Ossim.Sched.Calls
import Mathlib.Data.List.ReduceOption

/-!
# No process is lost but at a full queue

Every process handed to the scheduler by a call that finds room in its queue is
returned once or still waits (`conservation`). A call that finds the queue full drops
its process: `enqueue` returns without a word when `size >= MAX_QUEUE_SIZE`, and neither
`add_mlq_proc` nor `put_mlq_proc` looks. So all that was handed in is accounted for
exactly when no call found its queue full.
-/

namespace Ossim.Sched

open Dispatch Machine

variable {α : Type*} (prio : α → ℕ)

/-- Everything in the ready queues. -/
def queued (s : Mlq α) : Multiset α := ∑ i, ((s.mlqReadyQueue i).toList : Multiset α)

/-- The processes handed in by the calls of a run. -/
def handed (ops : List (Op α)) : List α := ops.filterMap Op.handed

/-- The process a call hands in, if its queue has room for it. -/
def accepts (op : Op α) (s : Mlq α) : List α :=
  match op.handed with
  | some p => if HasRoom prio s p then [p] else []
  | none => []

/-- The processes handed in by the calls of a run that found room. -/
def accepted (ops : List (Op α)) (s : Mlq α) : List α := output (call prio) (accepts prio) ops s

/-- The processes returned by the calls of `get_proc` of a run. -/
def returned (ops : List (Op α)) (s : Mlq α) : List α :=
  (output (call prio) result ops s).reduceOption

/-- A call that hands in a process finds room for it. -/
def FindsRoom (s : Mlq α) (op : Op α) : Prop := ∀ p, op.handed = some p → HasRoom prio s p

variable {prio}

theorem length_toList_le (s : Mlq α) (i : Fin maxPrio) :
    (s.mlqReadyQueue i).toList.length ≤ (queued s).card := by
  have h := Finset.single_le_sum (f := fun i => (s.mlqReadyQueue i).toList.length)
    (fun _ _ => Nat.zero_le _) (Finset.mem_univ i)
  have hcard : (queued s).card = ∑ i, (s.mlqReadyQueue i).toList.length := by simp [queued]
  rwa [hcard]

/-! ### One call -/

theorem queued_enlist {s : Mlq α} {p : α} (h : HasRoom prio s p) :
    queued (enlist prio (some p) s) = p ::ₘ queued s := by
  have hmove : toRoundRobin (enlist prio (some p) s) =
      RoundRobin.insert maxQueueSize ⟨prio p, h.1⟩ p (toRoundRobin s) := by
    rw [toRoundRobin_enlist, toOp, dif_pos h.1]
    rfl
  calc queued (enlist prio (some p) s)
      = RoundRobin.backlog (RoundRobin.insert maxQueueSize ⟨prio p, h.1⟩ p (toRoundRobin s)) := by
        rw [← hmove]; rfl
    _ = p ::ₘ queued s := RoundRobin.backlog_insert h.2

theorem enlist_of_full {s : Mlq α} {p : α} (h : ¬ HasRoom prio s p) (i : Fin maxPrio) :
    ((enlist prio (some p) s).mlqReadyQueue i).toList = (s.mlqReadyQueue i).toList := by
  rw [toList_enlist, if_neg fun hr => h hr.2]

theorem queued_enlist_of_full {s : Mlq α} {p : α} (h : ¬ HasRoom prio s p) :
    queued (enlist prio (some p) s) = queued s :=
  Finset.sum_congr rfl fun i _ => by rw [enlist_of_full h]

theorem queued_getProc (s : Mlq α) : (getProc s).1.toList + queued (getProc s).2 = queued s := by
  obtain ⟨hstate, hres⟩ := getMlqProc_refines s
  have hq : queued (getProc s).2 = RoundRobin.backlog (RoundRobin.pick quota (toRoundRobin s)).2 := by
    rw [← hstate]; rfl
  rw [hq, getProc, hres, RoundRobin.picked]
  cases hpick : RoundRobin.pick quota (toRoundRobin s) with
  | mk served s' =>
    cases served with
    | none => simpa using! RoundRobin.backlog_pick_none quota_pos hpick
    | some i =>
      obtain ⟨p, hhead, hb⟩ := RoundRobin.backlog_pick quota_pos hpick
      simp only [Option.bind_some, hhead, Option.toList_some, Multiset.coe_singleton,
        Multiset.singleton_add]
      exact hb.symm

/-! ### A run -/

theorem accepts_of_room {s : Mlq α} {op : Op α} {p : α} (hop : op.handed = some p)
    (h : HasRoom prio s p) :
    accepts prio op s = [p] := by
  simp only [accepts, hop, if_pos h]

theorem accepts_of_full {s : Mlq α} {op : Op α} {p : α} (hop : op.handed = some p)
    (h : ¬ HasRoom prio s p) :
    accepts prio op s = [] := by
  simp only [accepts, hop, if_neg h]

/-- A call that hands in a process, whichever of the two it is. -/
theorem call_of_handed {op : Op α} {p : α} (hop : op.handed = some p) (s : Mlq α) :
    call prio op s = enlist prio (some p) s ∧ result op s = [] := by
  cases op with
  | addProc q => cases hop; exact ⟨rfl, rfl⟩
  | putProc q => cases hop; exact ⟨rfl, rfl⟩
  | getProc => cases hop

/-- The step of the law. -/
theorem queued_call (op : Op α) (s : Mlq α) :
    ((result op s).reduceOption : Multiset α) + queued (call prio op s) =
      accepts prio op s + queued s := by
  cases hop : op.handed with
  | some p =>
    obtain ⟨hcall, hres⟩ := call_of_handed hop s
    rw [hcall, hres]
    by_cases h : HasRoom prio s p
    · rw [accepts_of_room hop h, queued_enlist h]
      simp [← Multiset.singleton_add]
    · rw [accepts_of_full hop h, queued_enlist_of_full h]
      simp
  | none =>
    obtain rfl : op = .getProc := by cases op <;> first | rfl | cases hop
    have h := queued_getProc s
    rw [accepts, hop]
    simp only [result, call, Multiset.coe_nil, zero_add]
    rw [← h]
    cases (getProc s).1 <;> rfl

theorem queued_start : queued (start : Mlq α) = 0 :=
  Finset.sum_eq_zero fun i _ => by simp [start, initScheduler]

/-- What was accepted is returned or still waits. -/
theorem accepted_eq (ops : List (Op α)) :
    (accepted prio ops start : Multiset α) =
      ↑(returned prio ops start) + queued (run (call prio) ops start) := by
  induction ops using List.reverseRecOn with
  | nil => exact (by rw [run_nil, queued_start]; rfl)
  | append_singleton ops op ih =>
    have hstep := @queued_call _ prio op (run (call prio) ops start)
    rw [accepted, returned] at ih ⊢
    rw [output_concat, output_concat, run_concat, ← Multiset.coe_add, ih, List.reduceOption_append,
      ← Multiset.coe_add, add_assoc, add_assoc, hstep, add_comm (queued _)]

theorem accepted_sublist (ops : List (Op α)) (s : Mlq α) :
    (accepted prio ops s).Sublist (handed ops) := by
  induction ops generalizing s with
  | nil => exact List.Sublist.refl _
  | cons op ops ih =>
    have hrest := ih (call prio op s)
    cases hop : op.handed with
    | none => simpa [accepted, output, accepts, handed, hop] using hrest
    | some p =>
      by_cases h : HasRoom prio s p
      · simpa [accepted, output, accepts, handed, hop, h] using hrest
      · simpa [accepted, output, accepts, handed, hop, h] using hrest.cons p

/-- Everything handed in is accepted exactly when every call finds room. -/
theorem accepted_eq_handed_iff (ops : List (Op α)) (s : Mlq α) :
    accepted prio ops s = handed ops ↔ Along (call prio) (FindsRoom prio) ops s := by
  induction ops generalizing s with
  | nil => simp [accepted, output, handed, Along]
  | cons op ops ih =>
    have hrest := ih (call prio op s)
    simp only [Along, FindsRoom, ← hrest]
    cases hop : op.handed with
    | none => simp [accepted, output, accepts, handed, hop]
    | some p =>
      by_cases h : HasRoom prio s p
      · simp [accepted, output, accepts, handed, hop, h]
      · have hlen := (@accepted_sublist _ prio ops (call prio op s)).length_le
        simp only [accepted, handed] at hlen
        have hne : accepted prio (op :: ops) s ≠ handed (op :: ops) := by
          intro he
          have := congrArg List.length he
          simp only [accepted, output, accepts, handed, hop, h, if_false, List.nil_append,
            List.filterMap_cons, List.length_cons] at this
          omega
        simp [hne, h]

/-- **No process is lost or duplicated but at a full queue**: the processes handed in by the
calls that found room are, each as often as it was handed in, those returned and those
still waiting; so they are all the processes handed in just when every call found room. -/
theorem conservation (prio : α → ℕ) (ops : List (Op α)) :
    (accepted prio ops start : Multiset α) =
      ↑(returned prio ops start) + queued (run (call prio) ops start) ∧
      ((handed ops : Multiset α) = ↑(returned prio ops start) + queued (run (call prio) ops start) ↔
        Along (call prio) (FindsRoom prio) ops start) := by
  refine ⟨accepted_eq ops, ?_⟩
  rw [← accepted_eq, ← accepted_eq_handed_iff]
  constructor
  · intro h
    exact (accepted_sublist ops start).eq_of_length (by simpa using (congrArg Multiset.card h).symm)
  · intro h
    rw [h]

/-! ### A burst of processes of one priority -/

/-- `n` processes of priority `0` arrive one after another. -/
def burst (n : ℕ) : List (Op ℕ) := (List.range n).map .addProc

/-- A burst that fits fills the queue in order. -/
theorem toList_burst {n : ℕ} (h : n ≤ maxQueueSize) :
    ∀ i, ((run (call fun _ => 0) (burst n) start).mlqReadyQueue i).toList =
      if (i : ℕ) = 0 then List.range n else [] := by
  induction n with
  | zero => simp [burst, start, initScheduler]
  | succ n ih =>
    have hroom : HasRoom (fun _ => 0) (run (call fun _ => 0) (burst n) start) n := by
      refine ⟨show 0 < maxPrio by decide, ?_⟩
      rw [ih (by omega), if_pos rfl, List.length_range]
      exact h
    intro i
    rw [burst, List.range_succ, List.map_append, List.map_singleton, run_concat, ← burst]
    rw [(call_of_handed (p := n) rfl _).1, toList_enlist, ih (by omega)]
    by_cases hi : (i : ℕ) = 0
    · rw [if_pos ⟨hi.symm, hroom⟩, if_pos hi, if_pos hi]
    · rw [if_neg fun h => hi h.1.symm, if_neg hi, if_neg hi]

theorem mem_queued {s : Mlq α} {p : α} : p ∈ queued s ↔ ∃ i, p ∈ (s.mlqReadyQueue i).toList := by
  simp [queued, Multiset.mem_sum]

/-- Every process of a burst that fits but for one is handed in while it is not queued. -/
theorem along_burst {n : ℕ} (h : n ≤ maxQueueSize + 1) :
    Along (call fun _ => 0) (fun s op => ∀ p, op.handed = some p → p ∉ queued s) (burst n) start := by
  induction n with
  | zero => trivial
  | succ n ih =>
    rw [burst, List.range_succ, List.map_append, List.map_singleton, along_append]
    refine ⟨ih (by omega), ?_, trivial⟩
    intro p hp
    obtain rfl : n = p := Option.some.inj hp
    rw [mem_queued]
    rintro ⟨i, hi⟩
    rw [← burst, toList_burst (Nat.le_of_succ_le_succ h)] at hi
    split_ifs at hi
    · simp at hi
    · cases hi

/-- The last process of a burst one longer than a queue is lost: each process is handed in
while it is not queued, with a priority the scheduler has, and yet the processes returned
and those waiting are not all that were handed in. -/
theorem burst_not_conserved :
    Along (call fun _ => 0) (fun s op => ∀ p, op.handed = some p → 0 < maxPrio ∧ p ∉ queued s)
      (burst 51) start ∧
      (handed (burst 51) : Multiset ℕ) ≠
        ↑(returned (fun _ => 0) (burst 51) start) +
          queued (run (call fun _ => 0) (burst 51) start) := by
  constructor
  · exact (along_burst (show 51 ≤ maxQueueSize + 1 by decide)).mono fun op s h p hp =>
      ⟨by decide, h p hp⟩
  · intro h
    rw [← accepted_eq] at h
    have hall : accepted (fun _ => 0) (burst 51) start = handed (burst 51) :=
      (accepted_sublist _ _).eq_of_length (by simpa using (congrArg Multiset.card h).symm)
    rw [accepted_eq_handed_iff, show burst 51 = burst 50 ++ [.addProc 50] from rfl,
      along_append] at hall
    obtain ⟨-, hlast, -⟩ := hall
    obtain ⟨_, hroom⟩ := hlast 50 rfl
    rw [toList_burst (by decide), if_pos rfl, List.length_range] at hroom
    exact absurd hroom (by decide)

end Ossim.Sched
