import Ossim.Sched.Calls
import Mathlib.Tactic.NormNum

/-!
# Who is served, how often, and how soon

Three facts about the calls of `get_proc` in a run, whatever calls of `add_proc` and
`put_proc` come between them.

* The queue served is the nearest from `curr_prio` on, not the one of smallest
  priority: the smallest is served just when the queues to choose from do not lie on
  both sides of the cursor (`servesSmallest_iff`). A process of priority `0` can wait
  while one of priority `1` is served (`cursor_past_smallest`).
* A slot count is the budget of its priority less the dispatches since the slots were
  last set, and the slots are set back only when every priority with a process waiting
  has had its whole budget (`slot_budget`).
* A process with `k` others ahead of it is returned within `(k + 1) (9870 + q)` calls
  (`bypass_bound`).
-/

namespace Ossim.Sched

open Dispatch Machine

variable {α : Type*} (prio : α → ℕ)

/-! ### The queue served -/

/-- When `get_proc` returns a process, no queue of smaller priority could have been
served. -/
def ServesSmallest (s : Mlq α) : Prop :=
  ∀ p, (getProc s).1 = some p → ∀ i : Fin maxPrio, (i : ℕ) < prio p → servable s i = false

/-- The queues that can be served all lie from the cursor on, or all before it. -/
def OneSided (s : Mlq α) : Prop :=
  (∀ i, servable s i = true → s.currPrio ≤ i) ∨ (∀ i, servable s i = true → i < s.currPrio)

variable {prio}

theorem servesSmallest_iff_of_sound {s : Mlq α} (hs : Sound prio s) :
    ServesSmallest prio s ↔ OneSided s := by
  rcases getMlqProc_cases s with ⟨i, p, hsearch, hhead, hget⟩ | ⟨hempty, hget⟩
  · have hpi : prio p = i := hs.placed i p (List.mem_of_head? hhead)
    have hres : (getProc s).1 = some p := congrArg Prod.fst hget
    rw [OneSided, ← search_least_iff hsearch]
    constructor
    · intro h j hj
      exact h p hres j (hpi ▸ hj)
    · intro h p' hp' j hj
      obtain rfl : p = p' := Option.some.inj (hres.symm.trans hp')
      exact h j (Fin.lt_def.mpr (hpi ▸ hj))
  · -- nobody waits: nothing is returned and there is nothing to choose from
    have hres : (getProc s).1 = none := congrArg Prod.fst hget
    apply iff_of_true
    · intro p hp
      rw [hres] at hp
      cases hp
    · left
      intro i hi
      exact absurd (hempty i) (servable_iff.mp hi).1

/-- **The smallest priority is served just when the choice is one-sided**: at a call of
`get_proc` in any state reached, and so at all calls of a run. -/
theorem servesSmallest_iff (prio : α → ℕ) (ops : List (Op α)) :
    (ServesSmallest prio (run (call prio) ops start) ↔ OneSided (run (call prio) ops start)) ∧
      (Along (call prio) (fun s op => op = .getProc → ServesSmallest prio s) ops start ↔
        Along (call prio) (fun s op => op = .getProc → OneSided s) ops start) := by
  refine ⟨servesSmallest_iff_of_sound (sound_run ops), ?_, ?_⟩
  · intro h
    apply h.mono_of (I := Sound prio) (fun op s hs _ => hs.call op) _ (sound_start prio)
    intro op s hs hserves hop
    exact (servesSmallest_iff_of_sound hs).mp (hserves hop)
  · intro h
    apply h.mono_of (I := Sound prio) (fun op s hs _ => hs.call op) _ (sound_start prio)
    intro op s hs hside hop
    exact (servesSmallest_iff_of_sound hs).mpr (hside hop)

/-- A process of priority `0` is dispatched and put back, and one of priority `1` arrives:
the cursor has moved on to `1`, which is served while `0` waits with `139` slots left. -/
theorem cursor_past_smallest :
    ¬ ServesSmallest (fun p : ℕ => p)
      (run (call fun p => p) [.addProc 0, .getProc, .putProc 0, .addProc 1] start) := by
  intro h
  have h0 := h 1 (by decide +kernel) ⟨0, by decide⟩ (by decide)
  revert h0
  decide +kernel

/-! ### Slot budgets -/

variable (prio)

/-- What a call of `get_proc` leaves on record: the process returned, and whether the call
set the slots back. -/
def dispatch : Op α → Mlq α → List (Option α × Bool)
  | .getProc, s => [((getProc s).1, decide (Replenishes s))]
  | .addProc _, _ | .putProc _, _ => []

/-- The record is of a dispatch at priority `i`. -/
def dispatchOf (i : Fin maxPrio) (r : Option α × Bool) : ℕ :=
  if r.1.any fun p => prio p = i then 1 else 0

/-- The dispatches at priority `i` since the slots were last set, the one made by the call
that set them included. -/
def dispatched (i : Fin maxPrio) (h : List (Option α × Bool)) : ℕ :=
  h.foldl (fun k r => (if r.2 then 0 else k) + dispatchOf prio i r) 0

variable {prio}

theorem dispatched_concat (i : Fin maxPrio) (h : List (Option α × Bool)) (r : Option α × Bool) :
    dispatched prio i (h ++ [r]) = (if r.2 then 0 else dispatched prio i h) + dispatchOf prio i r :=
  List.foldl_concat _ _ _ _

/-- What is left of a slot count after a call, and what the call took of it, make up the
slot count the choice was made with. -/
theorem slot_getProc {s : Mlq α} (hs : Sound prio s) (i : Fin maxPrio) :
    (getProc s).2.slot i + dispatchOf prio i ((getProc s).1, decide (Replenishes s)) =
      (atCall s).slot i := by
  rcases getMlqProc_cases s with ⟨j, p, -, hhead, hget⟩ | ⟨-, hget⟩
  · have hpj : prio p = j := hs.placed j p (List.mem_of_head? hhead)
    rw [getProc, hget]
    by_cases hij : i = j
    · subst hij
      simp [take_slot, dispatchOf, hpj]
    · have hne : ¬ prio p = i := fun h => hij (Fin.ext (h.symm.trans hpj))
      simp [take_slot, dispatchOf, hij, hne]
  · rw [getProc, hget]
    simp [dispatchOf]

/-- The law of the slots. -/
theorem slot_add_dispatched (ops : List (Op α)) (i : Fin maxPrio) :
    (run (call prio) ops start).slot i + dispatched prio i (output (call prio) dispatch ops start) =
      (maxPrio : ℤ) - i := by
  induction ops using List.reverseRecOn with
  | nil => simp [start, initScheduler, resetSlots, dispatched, output]
  | append_singleton ops op ih =>
    rw [run_concat, output_concat]
    cases op with
    | addProc p => rwa [call, addProc, addMlqProc, enlist_slot, dispatch, List.append_nil]
    | putProc p => rwa [call, putProc, putMlqProc, enlist_slot, dispatch, List.append_nil]
    | getProc =>
      have hstep := slot_getProc (@sound_run _ prio ops) i
      rw [call, dispatch, dispatched_concat]
      by_cases hr : Replenishes (run (call prio) ops start)
      · -- the slots are set back, and the count starts anew
        rw [atCall, if_pos hr] at hstep
        simp only [hr, decide_true, if_true] at hstep ⊢
        rw [zero_add, hstep]
        rfl
      · rw [atCall, if_neg hr] at hstep
        simp only [hr, decide_false, Bool.false_eq_true, if_false] at hstep ⊢
        push_cast
        omega

/-- A call sets the slots back only when every queue with a process in it is out of slots. -/
theorem Replenishes.slot_nonpos {s : Mlq α} (h : Replenishes s) {i : Fin maxPrio}
    (hi : (s.mlqReadyQueue i).toList ≠ []) : s.slot i ≤ 0 := by
  have hcredit := RoundRobin.credit_eq_zero_of_refills ((replenishes_iff s).mp h) hi
  exact Int.toNat_eq_zero.mp hcredit

/-- **Slot budgets are honoured exactly**: at every point of a run a slot count is the budget
of its priority less the dispatches since the slots were last set, which are at most the
budget, and are all of it if a process waits there when the slots are next set back. -/
theorem slot_budget (prio : α → ℕ) (ops : List (Op α)) (i : Fin maxPrio) :
    (run (call prio) ops start).slot i =
        (maxPrio : ℤ) - i - dispatched prio i (output (call prio) dispatch ops start) ∧
      0 ≤ (run (call prio) ops start).slot i ∧
      (run (call prio) ops start).slot i ≤ (maxPrio : ℤ) - i ∧
      dispatched prio i (output (call prio) dispatch ops start) ≤ maxPrio - i ∧
      (Replenishes (run (call prio) ops start) →
        ((run (call prio) ops start).mlqReadyQueue i).toList ≠ [] →
        dispatched prio i (output (call prio) dispatch ops start) = maxPrio - i) := by
  have hlaw := @slot_add_dispatched α prio ops i
  have hs := @sound_run α prio ops
  have hnonneg := hs.slot_nonneg i
  have hi := i.isLt
  refine ⟨by omega, hnonneg, hs.slot_le i, by omega, ?_⟩
  intro hr hne
  have := hr.slot_nonpos hne
  omega

/-! ### No process is passed over for ever -/

theorem sum_quota : ∑ i, quota i = 9870 := by decide +kernel

theorem maxWait_quota (q : Fin maxPrio) : RoundRobin.maxWait quota q + 1 = 9870 + q := by
  have hsum := Finset.add_sum_erase Finset.univ quota (Finset.mem_univ q)
  have hq := q.isLt
  rw [sum_quota] at hsum
  rw [RoundRobin.maxWait]
  simp only [quota, maxPrio] at hsum hq ⊢
  omega

theorem Sound.credit_le {s : Mlq α} (h : Sound prio s) (i : Fin maxPrio) :
    (toRoundRobin s).credit i ≤ quota i := by
  have := h.slot_le i
  rw [← cast_quota] at this
  exact Int.toNat_le.mpr this

theorem result_output (ops : List (Op α)) (s : Mlq α) :
    output (call prio) result ops s =
      output (RoundRobin.move quota maxQueueSize) (RoundRobin.taken quota) (ops.map (toOp prio))
        (toRoundRobin s) :=
  output_map (call_refines prio) (result_refines prio) ops s

/-- A turn that serves class `q` returns a process of that priority. -/
theorem exists_result_of_served {s : Mlq α} (h : Sound prio s) {q : Fin maxPrio} (op : Op α)
    (hq : some q ∈ RoundRobin.served quota (toOp prio op) (toRoundRobin s)) :
    ∃ p, some p ∈ result op s ∧ prio p = q := by
  cases op with
  | addProc p => simp only [toOp] at hq; split_ifs at hq <;> cases hq
  | putProc p => simp only [toOp] at hq; split_ifs at hq <;> cases hq
  | getProc =>
    have hpick : (RoundRobin.pick quota (toRoundRobin s)).1 = some q :=
      (List.mem_singleton.mp hq).symm
    obtain ⟨-, hne, -⟩ := RoundRobin.eligible_of_pick quota_pos (Prod.ext hpick rfl)
    obtain ⟨p, l, hl⟩ := List.exists_cons_of_ne_nil hne
    have hmem : p ∈ (toRoundRobin s).queue q := by rw [hl]; exact List.mem_cons_self
    refine ⟨p, ?_, h.placed q p hmem⟩
    rw [result_refines prio, toOp, RoundRobin.taken, RoundRobin.picked, hpick, Option.bind_some, hl]
    exact List.mem_singleton_self _

theorem exists_output_of_served (ops : List (Op α)) {s : Mlq α} (h : Sound prio s) {q : Fin maxPrio}
    (hq : some q ∈ output (RoundRobin.move quota maxQueueSize) (RoundRobin.served quota)
      (ops.map (toOp prio)) (toRoundRobin s)) :
    ∃ p, some p ∈ output (call prio) result ops s ∧ prio p = q := by
  induction ops generalizing s with
  | nil => cases hq
  | cons op ops ih =>
    rw [List.map_cons, output, ← call_refines, List.mem_append] at hq
    rcases hq with hq | hq
    · obtain ⟨p, hp, hpq⟩ := exists_result_of_served h op hq
      exact ⟨p, List.mem_append_left _ hp, hpq⟩
    · obtain ⟨p, hp, hpq⟩ := ih (h.call op) hq
      exact ⟨p, List.mem_append_right _ hp, hpq⟩

theorem busy_of_along (ops : List (Op α)) {s : Mlq α} {q : Fin maxPrio}
    (h : Along (call prio) (fun s op => op = .getProc → (s.mlqReadyQueue q).toList ≠ []) ops s) :
    Along (RoundRobin.move quota maxQueueSize) (RoundRobin.Busy q) (ops.map (toOp prio))
      (toRoundRobin s) := by
  induction ops generalizing s with
  | nil => trivial
  | cons op ops ih =>
    refine ⟨?_, call_refines prio op s ▸ ih h.2⟩
    cases op with
    | addProc p => simp only [toOp]; split_ifs <;> trivial
    | putProc p => simp only [toOp]; split_ifs <;> trivial
    | getProc => exact h.1 rfl

/-- **No process is passed over for ever**: from any state reached, and whatever calls come
next, fewer than `(k + 1) (9870 + q)` calls of `get_proc` are made before a process with
`k` others ahead of it in queue `q` is returned; and of `9870 + q` calls each of which
finds a process in queue `q`, one returns a process of that priority. -/
theorem bypass_bound (prio : α → ℕ) (ops ops' : List (Op α)) (q : Fin maxPrio) :
    (∀ k p, ((run (call prio) ops start).mlqReadyQueue q).toList[k]? = some p →
        some p ∉ output (call prio) result ops' (run (call prio) ops start) →
        (output (call prio) result ops' (run (call prio) ops start)).length < (k + 1) * (9870 + q)) ∧
      (Along (call prio) (fun s op => op = .getProc → (s.mlqReadyQueue q).toList ≠ []) ops'
          (run (call prio) ops start) →
        9870 + q ≤ (output (call prio) result ops' (run (call prio) ops start)).length →
        ∃ p, some p ∈ output (call prio) result ops' (run (call prio) ops start) ∧ prio p = q) := by
  have hs := @sound_run α prio ops
  constructor
  · intro k p hk hp
    rw [result_output] at hp ⊢
    rw [← maxWait_quota]
    exact RoundRobin.taken_length_lt quota_pos _ hs.credit_le hk hp
  · intro hbusy hlen
    by_contra hnone
    have hnot := mt (exists_output_of_served ops' hs) hnone
    have hle := RoundRobin.served_length_le quota_pos _ hs.credit_le (busy_of_along ops' hbusy) hnot
    rw [RoundRobin.length_served, ← result_output] at hle
    have := maxWait_quota q
    omega

end Ossim.Sched
