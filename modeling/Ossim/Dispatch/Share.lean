import Ossim.Dispatch.RoundRobin

/-!
# The share of a class

A class in which someone always waits is served its whole quota between one time the credits are
set back and the next. So of two such classes each is served in proportion to its quota, in every
stretch of a run, whatever the other classes have to do: up to what is left over at the two ends
of the stretch, which is no more than one quota of each (`served_share`).
-/

namespace Ossim.Dispatch.RoundRobin

open Machine

variable {n : ℕ} {α : Type*}

/-- Whether a turn sets the credits back. -/
def resets : Op n α → State n α → List Bool
  | .pick, s => [decide (Refills s)]
  | .insert _ _, _ | .skip, _ => []

section
variable {quota : Fin n → ℕ} (hquota : ∀ i, 0 < quota i) {cap : ℕ}

include hquota

/-- The law of the credits of a class in which someone waits. -/
theorem credit_move {i : Fin n} {s : State n α} {op : Op n α} (h : Busy i s op) :
    (move quota cap op s).credit i + (served quota op s).count (some i) =
      s.credit i + (resets op s).count true * quota i := by
  cases op with
  | insert j x =>
    simp only [move, insert, served, resets]
    split_ifs <;> simp
  | skip => simp [move, served, resets]
  | pick =>
    have hlaw := credit_pick hquota s i
    have hserved : (served quota .pick s).count (some i) =
        if (pick quota s).1 = some i then 1 else 0 := by
      rw [served, List.count_singleton]
      simp only [beq_iff_eq]
    rw [hserved, move, resets, List.count_singleton]
    by_cases hr : Refills s
    · have hzero := credit_eq_zero_of_refills hr h
      rw [turn_of_refills hr] at hlaw
      simp only [hr, decide_true, beq_self_eq_true, if_true, one_mul, hzero, zero_add]
      exact hlaw
    · rw [turn_of_not_refills hr] at hlaw
      simp only [hr, decide_false]
      simpa using hlaw

theorem credit_run {i : Fin n} {s : State n α} {ops : List (Op n α)}
    (h : Along (move quota cap) (Busy i) ops s) :
    (run (move quota cap) ops s).credit i +
        (output (move quota cap) (served quota) ops s).count (some i) =
      s.credit i + (output (move quota cap) resets ops s).count true * quota i := by
  induction ops generalizing s with
  | nil => simp [output]
  | cons op ops ih =>
    have hstep := @credit_move _ _ _ hquota cap _ _ _ h.1
    have hrest := ih h.2
    rw [run_cons, output, output, List.count_append, List.count_append, Nat.add_mul]
    omega

/-- No class ever has more credit than its quota. -/
theorem credit_le_run {s : State n α} (hs : ∀ j, s.credit j ≤ quota j) (ops : List (Op n α))
    (j : Fin n) : (run (move quota cap) ops s).credit j ≤ quota j := by
  induction ops generalizing s with
  | nil => exact hs j
  | cons op ops ih =>
    refine ih fun k => ?_
    cases op with
    | insert i x =>
      simp only [move, insert]
      split_ifs <;> exact hs k
    | skip => exact hs k
    | pick => exact credit_pick_le hquota hs k

/-- **Each is served in proportion to its quota.** -/
theorem served_share {i j : Fin n} {s : State n α} {ops : List (Op n α)}
    (hi : Along (move quota cap) (Busy i) ops s)
    (hj : Along (move quota cap) (Busy j) ops s) :
    (output (move quota cap) (served quota) ops s).count (some i) * quota j +
        (s.credit j * quota i + (run (move quota cap) ops s).credit i * quota j) =
      (output (move quota cap) (served quota) ops s).count (some j) * quota i +
        (s.credit i * quota j + (run (move quota cap) ops s).credit j * quota i) := by
  have hlawi := congrArg (· * quota j) (credit_run hquota hi)
  have hlawj := congrArg (· * quota i) (credit_run hquota hj)
  simp only [Nat.add_mul] at hlawi hlawj
  have hcomm : (output (move quota cap) resets ops s).count true * quota i * quota j =
      (output (move quota cap) resets ops s).count true * quota j * quota i :=
    Nat.mul_right_comm _ _ _
  omega

end

end Ossim.Dispatch.RoundRobin
