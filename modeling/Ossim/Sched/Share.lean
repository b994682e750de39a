import Ossim.Dispatch.Share
import Ossim.Sched.Fairness

/-!
# The share of a priority

The scheduler is the round robin with budgets, in every run and in all it returns
(`follows_roundRobin`). While processes wait at two priorities, each of them is dispatched in
proportion to its number of slots, `140 - prio`, whatever becomes of the other priorities: over
any stretch of a run the two counts differ from that proportion by what is left of the slots at
its ends, and no more (`proportional_share`).
-/

namespace Ossim.Sched

open Dispatch Machine

variable {α : Type*} {prio : α → ℕ}

/-- How many of the calls that returned `rs` returned a process of priority `i`. -/
def dispatches (prio : α → ℕ) (i : Fin maxPrio) (rs : List (Option α)) : ℕ :=
  rs.countP fun r => r.any fun p => prio p = i

/-- The round robin before the first call: nobody waits and every class has its whole quota. -/
def fresh : RoundRobin.State maxPrio α where
  queue _ := []
  credit := quota
  cursor := ⟨0, Nat.succ_pos 139⟩

theorem toRoundRobin_start : toRoundRobin (start : Mlq α) = fresh := by
  rw [start, initScheduler, toRoundRobin_resetSlots]
  rfl

/-- **The scheduler follows the round robin with budgets**, whatever calls are made of it. -/
theorem follows_roundRobin (prio : α → ℕ) (ops : List (Op α)) :
    toRoundRobin (run (call prio) ops start) =
        run (RoundRobin.move quota maxQueueSize) (ops.map (toOp prio)) fresh ∧
      output (call prio) result ops start =
        output (RoundRobin.move quota maxQueueSize) (RoundRobin.taken quota) (ops.map (toOp prio))
          fresh := by
  rw [run_refines, result_output, toRoundRobin_start]
  exact ⟨rfl, rfl⟩

/-! ### Dispatches and turns -/

/-- A call returns a process of priority `i` just when the turn serves class `i`. -/
theorem dispatches_result {s : Mlq α} (h : Sound prio s) (op : Op α) (i : Fin maxPrio) :
    dispatches prio i (result op s) =
      (RoundRobin.served quota (toOp prio op) (toRoundRobin s)).count (some i) := by
  cases op with
  | addProc p => simp only [toOp]; split_ifs <;> rfl
  | putProc p => simp only [toOp]; split_ifs <;> rfl
  | getProc =>
    rw [result_refines prio, toOp, RoundRobin.taken, RoundRobin.picked, RoundRobin.served]
    cases hpick : (RoundRobin.pick quota (toRoundRobin s)).1 with
    | none => rfl
    | some j =>
      obtain ⟨-, hne, -⟩ := RoundRobin.eligible_of_pick quota_pos (Prod.ext hpick rfl)
      obtain ⟨p, l, hl⟩ := List.exists_cons_of_ne_nil hne
      have hp : prio p = j := h.placed j p (by
        change p ∈ (toRoundRobin s).queue j
        rw [hl]
        exact List.mem_cons_self)
      rw [Option.bind_some, hl, List.head?_cons, dispatches, List.countP_singleton,
        List.count_singleton]
      simp [hp, Fin.ext_iff]

theorem dispatches_output (ops : List (Op α)) {s : Mlq α} (h : Sound prio s) (i : Fin maxPrio) :
    dispatches prio i (output (call prio) result ops s) =
      (output (RoundRobin.move quota maxQueueSize) (RoundRobin.served quota) (ops.map (toOp prio))
        (toRoundRobin s)).count (some i) := by
  induction ops generalizing s with
  | nil => rfl
  | cons op ops ih =>
    rw [List.map_cons, output, output, ← call_refines, List.count_append,
      ← dispatches_result h op i, ← ih (h.call op)]
    exact List.countP_append

/-! ### The share -/

/-- What two shares have over in common bounds how far they are apart. -/
theorem abs_sub_le_of_law {a b x y u v B : ℕ} (h : a + (x + u) = b + (y + v)) (hx : x ≤ B)
    (hu : u ≤ B) (hy : y ≤ B) (hv : v ≤ B) : |(a : ℤ) - b| ≤ 2 * B := by
  rw [abs_le]
  constructor <;> omega

/-- **Each is served in proportion to its slots**: between two points of a run, if every call of
`get_proc` finds processes both at priority `i` and at priority `j`, the dispatches at `i` are to
those at `j` as `140 - i` to `140 - j`, up to what one round of slots of each amounts to at the
two ends. -/
theorem proportional_share (prio : α → ℕ) (ops ops' : List (Op α)) (i j : Fin maxPrio)
    (hi : Along (call prio) (fun s op => op = .getProc → (s.mlqReadyQueue i).toList ≠ []) ops'
      (run (call prio) ops start))
    (hj : Along (call prio) (fun s op => op = .getProc → (s.mlqReadyQueue j).toList ≠ []) ops'
      (run (call prio) ops start)) :
    |(dispatches prio i (output (call prio) result ops' (run (call prio) ops start)) *
          (maxPrio - j) : ℤ) -
        dispatches prio j (output (call prio) result ops' (run (call prio) ops start)) *
          (maxPrio - i)| ≤ 2 * ((maxPrio - i) * (maxPrio - j)) := by
  have hs := @sound_run α prio ops
  have hlaw := RoundRobin.served_share quota_pos (busy_of_along ops' hi) (busy_of_along ops' hj)
  rw [← dispatches_output ops' hs, ← dispatches_output ops' hs] at hlaw
  have hend : ∀ k, (run (RoundRobin.move quota maxQueueSize) (ops'.map (toOp prio))
      (toRoundRobin (run (call prio) ops start))).credit k ≤ quota k :=
    RoundRobin.credit_le_run quota_pos hs.credit_le _
  have hbound := abs_sub_le_of_law (B := quota i * quota j) hlaw
    (by rw [Nat.mul_comm]; exact Nat.mul_le_mul_left _ (hs.credit_le j))
    (Nat.mul_le_mul_right _ (hend i))
    (Nat.mul_le_mul_right _ (hs.credit_le i))
    (by rw [Nat.mul_comm]; exact Nat.mul_le_mul_left _ (hend j))
  push_cast [cast_quota] at hbound
  exact hbound

/-- The process of priority `0` is dispatched and put back, and the one of priority `1` is
dispatched next: one dispatch of each, for `140` slots and `139`. -/
theorem proportional_share_twoPriorities :
    |(dispatches (fun p : ℕ => p) ⟨0, by decide⟩ (output (call fun p => p) result
          [.getProc, .putProc 0, .getProc] (run (call fun p => p) [.addProc 0, .addProc 1] start)) *
          (maxPrio - (⟨1, by decide⟩ : Fin maxPrio)) : ℤ) -
        dispatches (fun p : ℕ => p) ⟨1, by decide⟩ (output (call fun p => p) result
          [.getProc, .putProc 0, .getProc] (run (call fun p => p) [.addProc 0, .addProc 1] start)) *
          (maxPrio - (⟨0, by decide⟩ : Fin maxPrio))| ≤
      2 * ((maxPrio - (⟨0, by decide⟩ : Fin maxPrio)) *
        (maxPrio - (⟨1, by decide⟩ : Fin maxPrio))) := by
  apply proportional_share (fun p : ℕ => p) [.addProc 0, .addProc 1] [.getProc, .putProc 0, .getProc]
  · exact ⟨fun _ => by decide +kernel, by simp, fun _ => by decide +kernel, trivial⟩
  · exact ⟨fun _ => by decide +kernel, by simp, fun _ => by decide +kernel, trivial⟩

end Ossim.Sched
