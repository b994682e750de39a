import Mathlib.Algebra.BigOperators.Group.Finset.Piecewise
import Mathlib.Algebra.BigOperators.Ring.Finset
import Mathlib.Algebra.Order.BigOperators.Group.Finset
import Mathlib.Data.Finset.Card
import Mathlib.Tactic.SplitIfs

/-!
# Machines that do not idle

A log of pieces of work, each done by a machine, for a job, in a slot. If in every one of some
slots either each of some machines works or a certain job is worked for, then these slots are
not many: counted once for each of the machines, they are no more than all the work, and the
work for that job once again for each machine but one (`card_mul_card_le`).
-/

namespace Ossim.Machine

variable {ε M J : Type*} [DecidableEq M] [DecidableEq J]
variable (machine : ε → M) (job : ε → J) (slot : ε → ℕ)

/-- A machine works in a slot. -/
def Works (log : List ε) (t : ℕ) (c : M) : Prop := ∃ e ∈ log, machine e = c ∧ slot e = t

/-- A job is worked for in a slot. -/
def Served (log : List ε) (t : ℕ) (p : J) : Prop := ∃ e ∈ log, job e = p ∧ slot e = t

/-- How much work is done in a slot. -/
def workIn (log : List ε) (t : ℕ) : ℕ := log.countP fun e => slot e = t

/-- How much of it for a job. -/
def workFor (log : List ε) (p : J) (t : ℕ) : ℕ := log.countP fun e => job e = p ∧ slot e = t

variable {machine job slot} {log : List ε} {t : ℕ} {p : J}

/-- Machines that all work do a piece of work each. -/
theorem card_le_workIn {cs : Finset M} (h : ∀ c ∈ cs, Works machine slot log t c) :
    cs.card ≤ workIn slot log t := by
  have hsub : cs ⊆ ((log.filter fun e => slot e = t).map machine).toFinset := by
    intro c hc
    obtain ⟨e, he, hmachine, hslot⟩ := h c hc
    exact List.mem_toFinset.mpr
      (List.mem_map.mpr ⟨e, List.mem_filter.mpr ⟨he, decide_eq_true hslot⟩, hmachine⟩)
  calc cs.card ≤ ((log.filter fun e => slot e = t).map machine).toFinset.card :=
        Finset.card_le_card hsub
    _ ≤ ((log.filter fun e => slot e = t).map machine).length := List.toFinset_card_le _
    _ = workIn slot log t := by rw [List.length_map, workIn, List.countP_eq_length_filter]

theorem workFor_pos (h : Served job slot log t p) : 0 < workFor job slot log p t := by
  obtain ⟨e, he, hjob, hslot⟩ := h
  exact List.countP_pos_iff.mpr ⟨e, he, decide_eq_true ⟨hjob, hslot⟩⟩

theorem workFor_le_workIn (log : List ε) (p : J) (t : ℕ) :
    workFor job slot log p t ≤ workIn slot log t := by
  apply List.countP_mono_left
  intro e _ he
  exact decide_eq_true (of_decide_eq_true he).2

/-- A piece of work is done in one slot. -/
theorem sum_countP_le (q : ε → Prop) [DecidablePred q] (ts : Finset ℕ) (log : List ε) :
    ∑ t ∈ ts, (log.countP fun e => q e ∧ slot e = t) ≤ log.countP q := by
  induction log with
  | nil => simp
  | cons e log ih =>
    have hone : ∑ t ∈ ts, (if q e ∧ slot e = t then 1 else 0) ≤ if q e then 1 else 0 := by
      by_cases hq : q e
      · simp only [hq, true_and, if_true, Finset.sum_ite_eq]
        split_ifs <;> omega
      · simp [hq]
    simp only [List.countP_cons, Finset.sum_add_distrib, decide_eq_true_eq]
    exact Nat.add_le_add ih hone

/-- **Work conservation bounds the slots.** -/
theorem card_mul_card_le {cs : Finset M} {ts : Finset ℕ} {p : J}
    (h : ∀ t ∈ ts, (∀ c ∈ cs, Works machine slot log t c) ∨ Served job slot log t p) :
    cs.card * ts.card ≤ log.length + (cs.card - 1) * log.countP fun e => job e = p := by
  have hslot : ∀ t ∈ ts,
      cs.card ≤ workIn slot log t + (cs.card - 1) * workFor job slot log p t := by
    intro t ht
    rcases h t ht with hall | hserved
    · exact (card_le_workIn hall).trans (Nat.le_add_right _ _)
    · have hpos := workFor_pos hserved
      have hle := @workFor_le_workIn _ _ _ job slot log p t
      have hmul : cs.card - 1 ≤ (cs.card - 1) * workFor job slot log p t :=
        Nat.le_mul_of_pos_right _ hpos
      omega
  have hwork : ∑ t ∈ ts, workIn slot log t ≤ log.length := by
    have hsum := @sum_countP_le _ slot (fun _ => True) _ ts log
    simp only [true_and, decide_true, List.countP_true] at hsum
    exact hsum
  have hjob : ∑ t ∈ ts, workFor job slot log p t ≤ log.countP fun e => job e = p :=
    sum_countP_le _ ts log
  calc cs.card * ts.card = ∑ t ∈ ts, cs.card := by
        rw [Finset.sum_const_nat fun _ _ => rfl, Nat.mul_comm]
    _ ≤ ∑ t ∈ ts, (workIn slot log t + (cs.card - 1) * workFor job slot log p t) :=
        Finset.sum_le_sum hslot
    _ = ∑ t ∈ ts, workIn slot log t + (cs.card - 1) * ∑ t ∈ ts, workFor job slot log p t := by
        rw [Finset.sum_add_distrib, Finset.mul_sum]
    _ ≤ log.length + (cs.card - 1) * log.countP fun e => job e = p :=
        Nat.add_le_add hwork (Nat.mul_le_mul_left _ hjob)

end Ossim.Machine
